import DocGrammar.Doc.Children
import DocGrammar.Proofs.Direct.Places
import DocGrammar.Proofs.Reading

/-!
# Where the values of a document come from

A path of indices leads to a value of a document, and `Source target content` says where in the text
that value comes from: it is read at `target`, which is what is left of the text there, and
`content` is what is read.

Every value of a document has a source, and only one (`Source.unique`, `Doc.read_sources`); so what
is known about reading at a place of the text is known about the values of the document, at whatever
depth.
-/

set_option autoImplicit false

namespace DocGrammar

/-! ## Paths -/

namespace Doc

/-- A path begins with a child. -/
theorem descend_cons_eq_ok {d e : Doc} {index : Nat} {path : List Nat} :
    d.descend (index :: path) = .ok e ↔
      ∃ child, d.children[index]? = some child ∧ child.descend path = .ok e := by
  rw [descend, child]
  cases d.children[index]? with
  | none => exact ⟨nofun, by rintro ⟨_, h, -⟩; cases h⟩
  | some child => exact ⟨fun h ↦ ⟨child, rfl, h⟩, by rintro ⟨_, h, hpath⟩; cases h; exact hpath⟩

end Doc

namespace Direct

/-! ## Sources -/

/-- A value among those that a text begins with is read at a target.  Which value it is, is told by
a path of indices. -/
inductive Source (target : List UInt8) (content : Content Doc) :
    Stage → List Nat → List UInt8 → Prop
  /-- The value itself, -/
  | here {depth : Nat} {left : List UInt8} (hread : value depth target = some (content, left)) :
      Source target content .value [] target
  /-- a value in a collection, -/
  | inside {form : Form} {path : List Nat} {rest bytes : List UInt8}
      (hfluff : fluff rest = some bytes)
      (h : Source target content (.items form) path bytes) :
      Source target content .value path (TextGrammar.opener form :: rest)
  /-- in its first element, -/
  | element {path : List Nat} {bytes : List UInt8} (h : Source target content .value path bytes) :
      Source target content (.items .array) (0 :: path) bytes
  /-- in its first member, -/
  | member {path : List Nat} {bytes rest left : List UInt8} {name : String}
      (hname : heading bytes = some (name, rest)) (hfluff : fluff rest = some left)
      (h : Source target content .value path left) :
      Source target content (.items .node) (0 :: path) bytes
  /-- or in a later one. -/
  | later {form : Form} {index : Nat} {path : List Nat} {bytes rest left : List UInt8} {depth : Nat}
      {doc : Doc} (hitem : itemOf form (value depth) bytes = some (doc, rest))
      (hfluff : fluff rest = some left)
      (h : Source target content (.items form) (index :: path) left) :
      Source target content (.items form) ((index + 1) :: path) bytes

/-- A value of a document is read at a target. -/
def DocumentSource (target : List UInt8) (content : Content Doc) (path : List Nat)
    (bytes : List UInt8) : Prop :=
  ∃ rest, fluff bytes = some rest ∧ Source target content (.items .node) path rest

variable {target target' : List UInt8} {content content' : Content Doc}

theorem value_unique {depth depth' : Nat} {bytes left left' : List UInt8}
    (h : value depth bytes = some (content, left))
    (h' : value depth' bytes = some (content', left')) : content = content' ∧ left = left' := by
  have hleft := value_mono (Nat.le_max_left depth depth') h
  have hright := value_mono (Nat.le_max_right depth depth') h'
  exact Prod.mk.inj (Option.some.inj (hleft.symm.trans hright))

theorem itemOf_unique {form : Form} {depth depth' : Nat} {bytes left left' : List UInt8}
    {doc doc' : Doc} (h : itemOf form (value depth) bytes = some (doc, left))
    (h' : itemOf form (value depth') bytes = some (doc', left')) : doc = doc' ∧ left = left' := by
  have hleft := itemOf_mono form (Nat.le_max_left depth depth') h
  have hright := itemOf_mono form (Nat.le_max_right depth depth') h'
  exact Prod.mk.inj (Option.some.inj (hleft.symm.trans hright))

theorem opener_injective {form form' : Form}
    (h : TextGrammar.opener form = TextGrammar.opener form') :
    form = form' := by
  cases form <;> cases form' <;> first | rfl | exact absurd h (by decide)

/-- **A value has one source**, and there is one value at each. -/
theorem Source.unique {stage : Stage} {path : List Nat} {bytes : List UInt8}
    (h : Source target content stage path bytes) (h' : Source target' content' stage path bytes) :
    target = target' ∧ content = content' := by
  induction h with
  | here hread =>
    cases h' with
    | here hread' => exact ⟨rfl, (value_unique hread hread').1⟩
    | inside _ h' => cases h'
  | inside hfluff h ih =>
    generalize hbytes : TextGrammar.opener _ :: _ = bytes at h'
    cases h' with
    | here => cases h
    | inside hfluff' h' =>
      obtain ⟨hform, rfl⟩ := List.cons.inj hbytes
      obtain rfl := opener_injective hform
      obtain rfl := Option.some.inj (hfluff.symm.trans hfluff')
      exact ih h'
  | element _ ih =>
    cases h' with
    | element h' => exact ih h'
  | member hname hfluff _ ih =>
    cases h' with
    | member hname' hfluff' h' =>
      obtain ⟨-, rfl⟩ := Prod.mk.inj (Option.some.inj (hname.symm.trans hname'))
      obtain rfl := Option.some.inj (hfluff.symm.trans hfluff')
      exact ih h'
  | later hitem hfluff _ ih =>
    cases h' with
    | later hitem' hfluff' h' =>
      obtain ⟨-, rfl⟩ := itemOf_unique hitem hitem'
      obtain rfl := Option.some.inj (hfluff.symm.trans hfluff')
      exact ih h'

/-- A value is read at its source. -/
theorem Source.reads {stage : Stage} {path : List Nat} {bytes : List UInt8}
    (h : Source target content stage path bytes) :
    ∃ depth left, value depth target = some (content, left) := by
  induction h with
  | here hread => exact ⟨_, _, hread⟩
  | inside _ _ ih => exact ih
  | element _ ih => exact ih
  | member _ _ _ ih => exact ih
  | later _ _ _ ih => exact ih

/-! ## What is read -/

/-- What a text begins with is read as a document: as its content, or as its children. -/
def Reads (bytes : List UInt8) (d : Doc) : Stage → Prop
  | .value => ∃ depth left, value depth bytes = some (d.content, left)
  | .items form => d.tag = form.tag ∧ ∃ closer, MayClose form closer ∧ ∃ depth rounds left,
    items (itemOf form (value depth)) closer rounds bytes = some (d.children, left)

/-- A list of documents as a document that has them as children. -/
def family (form : Form) (docs : List Doc) : Doc := ⟨.empty, .collection form ⟨docs, 0⟩⟩

/-- Items, if there are any, are a first one and others behind fluff. -/
theorem Reads.cons {form : Form} {bytes : List UInt8} {d child : Doc} {docs : List Doc}
    (h : Reads bytes d (.items form)) (hchildren : d.children = child :: docs) :
    ∃ depth rest left, itemOf form (value depth) bytes = some (child, rest) ∧
      fluff rest = some left ∧ Reads left (family form docs) (.items form) := by
  obtain ⟨-, closer, hcloses, depth, rounds, _, hitems⟩ := h
  rw [hchildren] at hitems
  cases rounds with
  | zero => cases hitems
  | succ rounds =>
    rw [items] at hitems
    split at hitems
    · cases hitems
    · obtain ⟨first, hfirst, hleft⟩ := Option.bind_eq_some_iff.1 hitems
      obtain ⟨⟨doc, rest⟩, hitem, hbehind⟩ := Option.bind_eq_some_iff.1 hfirst
      obtain ⟨left, hfluff, rfl⟩ := Option.map_eq_some_iff.1 hbehind
      obtain ⟨more, hmore, heq⟩ := Option.map_eq_some_iff.1 hleft
      cases heq
      exact ⟨depth, rest, left, hitem, hfluff, rfl, closer, hcloses, depth, rounds, _, hmore⟩

/-- Where no closing byte stands, there is a child. -/
theorem Reads.exists_child {form : Form} {bytes : List UInt8} {d : Doc}
    (h : Reads bytes d (.items form))
    (hopen : ∀ closer, MayClose form closer → bytes.head? ≠ closer) :
    ∃ child docs, d.children = child :: docs := by
  obtain ⟨-, closer, hcloses, depth, rounds, _, hitems⟩ := h
  cases rounds with
  | zero => cases hitems
  | succ rounds =>
    rw [items, if_neg (hopen closer hcloses)] at hitems
    obtain ⟨first, -, hleft⟩ := Option.bind_eq_some_iff.1 hitems
    obtain ⟨more, -, heq⟩ := Option.map_eq_some_iff.1 hleft
    exact ⟨first.1, more.1, (Prod.mk.inj heq).1.symm⟩

/-- Where an item is read, it is the first child. -/
theorem Reads.of_item {form : Form} {bytes rest left : List UInt8} {d child : Doc} {depth : Nat}
    (h : Reads bytes d (.items form)) (hitem : itemOf form (value depth) bytes = some (child, rest))
    (hfluff : fluff rest = some left) :
    ∃ docs, d.children = child :: docs ∧ Reads left (family form docs) (.items form) := by
  obtain ⟨child', docs, hchildren⟩ := h.exists_child fun closer hcloses hhead ↦ by
    rw [hcloses.itemOf_eq_none depth hhead] at hitem
    cases hitem
  obtain ⟨depth', rest', left', hitem', hfluff', hmore⟩ := h.cons hchildren
  obtain ⟨rfl, rfl⟩ := itemOf_unique hitem hitem'
  obtain rfl := Option.some.inj (hfluff.symm.trans hfluff')
  exact ⟨docs, hchildren, hmore⟩

/-- What stands between brackets are the children. -/
theorem reads_inside {form : Form} {rest bytes : List UInt8} {d : Doc}
    (h : Reads (TextGrammar.opener form :: rest) d .value) (hfluff : fluff rest = some bytes) :
    Reads bytes d (.items form) := by
  obtain ⟨depth, left, hread⟩ := h
  cases depth with
  | zero => cases hread
  | succ depth =>
    rw [value_collection] at hread
    obtain ⟨⟨docs, left'⟩, hitems, heq⟩ := Option.map_eq_some_iff.1 hread
    obtain ⟨hcontent, rfl⟩ := Prod.mk.inj heq
    obtain ⟨bytes', hfluff', hitems⟩ := Option.bind_eq_some_iff.1 hitems
    obtain rfl := Option.some.inj (hfluff.symm.trans hfluff')
    have hchildren : d.children = docs := by
      rw [Doc.children, ← hcontent]
      exact Doc.gather_items docs
    refine ⟨by rw [Doc.tag, ← hcontent]; rfl, _, ?_, depth, _, left', hchildren ▸ hitems⟩
    cases form with
    | array => exact rfl
    | node => exact .inl rfl

/-! ### Values without children -/

/-- A reader of values that are no collections. -/
def ReadsLeaves (read : List UInt8 → Option (Content Doc × List UInt8)) : Prop :=
  ∀ ⦃bytes content left⦄, read bytes = some (content, left) → content.tag.isCollection = false

theorem ReadsLeaves.or {read read' : List UInt8 → Option (Content Doc × List UInt8)}
    (h : ReadsLeaves read) (h' : ReadsLeaves read') :
    ReadsLeaves fun bytes ↦ (read bytes).or (read' bytes) := by
  intro bytes content left hread
  rcases Option.or_eq_some_iff.1 hread with hread | ⟨-, hread⟩
  · exact h hread
  · exact h' hread

theorem word_readsLeaves (spelling : String) {content : Content Doc}
    (h : content.tag.isCollection = false) : ReadsLeaves (word spelling content) := by
  intro bytes content' left hread
  obtain ⟨-, heq⟩ := Option.ite_none_right_eq_some.1 hread
  cases heq
  exact h

theorem keyword_readsLeaves : ReadsLeaves keyword :=
  (word_readsLeaves _ rfl).or ((word_readsLeaves _ rfl).or (word_readsLeaves _ rfl))

theorem number_readsLeaves : ReadsLeaves number := by
  refine ReadsLeaves.or (fun bytes content left hread ↦ ?_) fun bytes content left hread ↦ ?_
  · obtain ⟨found, -, hread⟩ := Option.bind_eq_some_iff.1 hread
    obtain ⟨numeral, -, hread⟩ := Option.bind_eq_some_iff.1 hread
    obtain ⟨-, heq⟩ := Option.ite_none_right_eq_some.1 hread
    cases heq
    rfl
  · rw [integer] at hread
    obtain ⟨found, -, hread⟩ := Option.bind_eq_some_iff.1 hread
    obtain ⟨-, heq⟩ := Option.ite_none_right_eq_some.1 hread
    cases heq
    rfl

theorem stringValue_readsLeaves : ReadsLeaves stringValue := by
  intro bytes content left hread
  obtain ⟨found, -, heq⟩ := Option.map_eq_some_iff.1 hread
  cases heq
  rfl

theorem Vec.tag_isCollection (v : Vec) : v.tag.isCollection = false := by
  rw [Vec.tag]
  split
  all_goals rfl

theorem vectorValue_readsLeaves : ReadsLeaves vectorValue := by
  intro bytes content left hread
  cases bytes with
  | nil => cases hread
  | cons b rest =>
    obtain ⟨-, hread⟩ := Option.ite_none_right_eq_some.1 hread
    obtain ⟨found, -, hread⟩ := Option.bind_eq_some_iff.1 hread
    obtain ⟨content', hvector, heq⟩ := Option.map_eq_some_iff.1 hread
    cases heq
    obtain ⟨v, -, hvector⟩ := Option.bind_eq_some_iff.1 hvector
    obtain ⟨-, heq⟩ := Option.ite_none_right_eq_some.1 hvector
    cases heq
    exact Vec.tag_isCollection v

/-- A value with children begins with an opening bracket and fluff. -/
theorem reads_child {bytes : List UInt8} {d : Doc} (h : Reads bytes d .value)
    (hchildren : d.children ≠ []) :
    ∃ form rest left, bytes = TextGrammar.opener form :: rest ∧ fluff rest = some left := by
  have hinside (form : Form) {read : List UInt8 → Option (Doc × List UInt8)}
      {found : Content Doc × List UInt8} (hread : collection form read bytes = some found) :
      ∃ rest left, bytes = TextGrammar.opener form :: rest ∧ fluff rest = some left := by
    obtain ⟨hhead, hread⟩ := Option.ite_none_right_eq_some.1 hread
    obtain ⟨rest, rfl⟩ := List.head?_eq_some_iff.1 hhead
    obtain ⟨docs, hdocs, -⟩ := Option.map_eq_some_iff.1 hread
    obtain ⟨left, hfluff, -⟩ := Option.bind_eq_some_iff.1 hdocs
    exact ⟨rest, left, rfl, hfluff⟩
  obtain ⟨depth, left, hread⟩ := h
  have hleaf (hnone : d.content.tag.isCollection = false) : False := by
    obtain ⟨name, content⟩ := d
    cases content with
    | collection form c => cases form <;> cases hnone
    | _ => exact hchildren rfl
  cases depth with
  | zero => cases hread
  | succ depth =>
    rw [value_eq, alternatives] at hread
    rcases Option.or_eq_some_iff.1 hread with hread | ⟨-, hread⟩
    · exact absurd (keyword_readsLeaves.or number_readsLeaves hread) (by simpa using hleaf)
    rcases Option.or_eq_some_iff.1 hread with hread | ⟨-, hread⟩
    · exact absurd (stringValue_readsLeaves hread) (by simpa using hleaf)
    rcases Option.or_eq_some_iff.1 hread with hread | ⟨-, hread⟩
    · exact absurd (vectorValue_readsLeaves hread) (by simpa using hleaf)
    rcases Option.or_eq_some_iff.1 hread with hread | ⟨-, hread⟩
    · exact ⟨.array, hinside .array hread⟩
    · exact ⟨.node, hinside .node hread⟩

/-! ## Every value has a source -/

/-- The value of an item is read behind its name, if it has one. -/
theorem source_item {form : Form} {bytes rest : List UInt8} {depth : Nat} {child : Doc}
    (h : itemOf form (value depth) bytes = some (child, rest)) {path : List Nat}
    (hsource : ∀ bytes', Reads bytes' child .value →
      ∃ target, Source target content .value path bytes') :
    ∃ target, Source target content (.items form) (0 :: path) bytes := by
  cases form with
  | array =>
    obtain ⟨found, hread, heq⟩ := Option.map_eq_some_iff.1 h
    cases heq
    obtain ⟨target, hsource⟩ := hsource _ ⟨depth, _, hread⟩
    exact ⟨target, .element hsource⟩
  | node =>
    obtain ⟨⟨name, behind⟩, hname, hbehind⟩ := Option.bind_eq_some_iff.1 h
    obtain ⟨found, hread, heq⟩ := Option.map_eq_some_iff.1 hbehind
    obtain ⟨left, hfluff, hread⟩ := Option.bind_eq_some_iff.1 hread
    cases heq
    obtain ⟨target, hsource⟩ := hsource _ ⟨depth, _, hread⟩
    exact ⟨target, .member hname hfluff hsource⟩

/-- Children have sources if they have when they are read as values by themselves. -/
theorem source_child {form : Form} {child : Doc} {path : List Nat}
    (hsource : ∀ bytes, Reads bytes child .value →
      ∃ target, Source target content .value path bytes) :
    ∀ (index : Nat) {bytes : List UInt8} {d : Doc}, Reads bytes d (.items form) →
      d.children[index]? = some child →
        ∃ target, Source target content (.items form) (index :: path) bytes
  | index, bytes, d, h, hchild => by
    cases hchildren : d.children with
    | nil =>
      rw [hchildren] at hchild
      cases hchild
    | cons first docs =>
      obtain ⟨depth, rest, left, hitem, hfluff, hmore⟩ := h.cons hchildren
      rw [hchildren] at hchild
      cases index with
      | zero =>
        cases hchild
        exact source_item hitem hsource
      | succ index =>
        obtain ⟨target, hlater⟩ := source_child hsource index hmore hchild
        exact ⟨target, .later hitem hfluff hlater⟩

/-- **Every value has a source.** -/
theorem exists_source : ∀ (path : List Nat) {bytes : List UInt8} {d e : Doc},
    Reads bytes d .value → d.descend path = .ok e →
      ∃ target, Source target e.content .value path bytes
  | [], bytes, d, e, h, hpath => by
    cases hpath
    obtain ⟨depth, left, hread⟩ := h
    exact ⟨bytes, .here hread⟩
  | index :: path, bytes, d, e, h, hpath => by
    obtain ⟨child, hchild, hpath⟩ := Doc.descend_cons_eq_ok.1 hpath
    obtain ⟨form, rest, left, rfl, hfluff⟩ := reads_child h fun hnil ↦ by
      rw [hnil] at hchild
      cases hchild
    obtain ⟨target, hsource⟩ := source_child
      (fun bytes' h' ↦ exists_source path h' hpath) index (reads_inside h hfluff) hchild
    exact ⟨target, .inside hfluff hsource⟩

/-- No value begins with the closing bracket of an array. -/
theorem Source.head?_ne {path : List Nat} {bytes : List UInt8}
    (h : Source target content .value path bytes) : bytes.head? ≠ some 0x5D := by
  intro hhead
  cases h with
  | here hread =>
    rw [value_eq_none _ hhead] at hread
    cases hread
  | @inside form =>
    cases form <;> exact absurd (Option.some.inj hhead) (by decide)

/-- The first element is a value. -/
theorem Reads.element {bytes : List UInt8} {d : Doc} (h : Reads bytes d (.items .array))
    (hopen : bytes.head? ≠ some 0x5D) :
    ∃ child docs depth rest left, d.children = child :: docs ∧
      value depth bytes = some (child.content, rest) ∧ fluff rest = some left ∧
      Reads left (family .array docs) (.items .array) := by
  obtain ⟨child, docs, hchildren⟩ := h.exists_child fun closer hcloses hhead ↦
    hopen (hhead.trans hcloses)
  obtain ⟨depth, rest, left, hitem, hfluff, hmore⟩ := h.cons hchildren
  obtain ⟨⟨content, rest'⟩, hread, heq⟩ := Option.map_eq_some_iff.1 hitem
  cases heq
  exact ⟨_, docs, depth, _, left, hchildren, hread, hfluff, hmore⟩

/-- The first member is a value behind its name. -/
theorem Reads.member {bytes behind start : List UInt8} {name : String} {d : Doc}
    (h : Reads bytes d (.items .node)) (hname : heading bytes = some (name, behind))
    (hstart : fluff behind = some start) :
    ∃ child docs depth rest left, d.children = child :: docs ∧
      value depth start = some (child.content, rest) ∧ fluff rest = some left ∧
      Reads left (family .node docs) (.items .node) := by
  obtain ⟨child, docs, hchildren⟩ := h.exists_child fun closer hcloses hhead ↦ by
    have hnone := string_eq_none_of_closer (hcloses.imp hhead.trans hhead.trans)
    rw [heading, hnone] at hname
    cases hname
  obtain ⟨depth, rest, left, hitem, hfluff, hmore⟩ := h.cons hchildren
  obtain ⟨⟨name', behind'⟩, hname', hitem⟩ := Option.bind_eq_some_iff.1 hitem
  obtain ⟨⟨content, rest'⟩, hread, heq⟩ := Option.map_eq_some_iff.1 hitem
  obtain ⟨start', hstart', hread⟩ := Option.bind_eq_some_iff.1 hread
  obtain ⟨rfl, rfl⟩ := Prod.mk.inj (Option.some.inj (hname.symm.trans hname'))
  obtain rfl := Option.some.inj (hstart.symm.trans hstart')
  cases heq
  exact ⟨_, docs, depth, _, left, hchildren, hread, hfluff, hmore⟩

/-- A value in the first child, -/
theorem descend_first {d child e : Doc} {docs : List Doc} {path : List Nat}
    (hchildren : d.children = child :: docs) (hpath : child.descend path = .ok e) :
    d.descend (0 :: path) = .ok e :=
  Doc.descend_cons_eq_ok.2 ⟨child, by rw [hchildren]; rfl, hpath⟩

/-- or in a later one. -/
theorem descend_later {d child e : Doc} {docs : List Doc} {form : Form} {index : Nat}
    {path : List Nat} (hchildren : d.children = child :: docs)
    (hpath : (family form docs).descend (index :: path) = .ok e) :
    d.descend ((index + 1) :: path) = .ok e := by
  obtain ⟨later, hlater, hpath⟩ := Doc.descend_cons_eq_ok.1 hpath
  exact Doc.descend_cons_eq_ok.2 ⟨later, by rw [hchildren]; exact hlater, hpath⟩

/-- **Every source is of a value.** -/
theorem Source.descend {stage : Stage} {path : List Nat} {bytes : List UInt8}
    (h : Source target content stage path bytes) {d : Doc} (hd : Reads bytes d stage) :
    ∃ e, d.descend path = .ok e ∧ e.content = content := by
  induction h generalizing d with
  | here hread =>
    obtain ⟨depth, left, hd⟩ := hd
    exact ⟨d, rfl, (value_unique hd hread).1⟩
  | inside hfluff _ ih => exact ih (reads_inside hd hfluff)
  | element hvalue ih =>
    obtain ⟨child, docs, depth, rest, left, hchildren, hread, -⟩ := hd.element hvalue.head?_ne
    obtain ⟨e, hpath, hcontent⟩ := ih ⟨depth, rest, hread⟩
    exact ⟨e, descend_first hchildren hpath, hcontent⟩
  | member hname hfluff _ ih =>
    obtain ⟨child, docs, depth, rest, left, hchildren, hread, -⟩ := hd.member hname hfluff
    obtain ⟨e, hpath, hcontent⟩ := ih ⟨depth, rest, hread⟩
    exact ⟨e, descend_first hchildren hpath, hcontent⟩
  | later hitem hfluff _ ih =>
    obtain ⟨docs, hchildren, hmore⟩ := hd.of_item hitem hfluff
    obtain ⟨e, hpath, hcontent⟩ := ih hmore
    exact ⟨e, descend_later hchildren hpath, hcontent⟩

end Direct

/-! ## The values of a document -/

namespace Doc

open Direct

variable {input : Array UInt8}

/-- The members of a document are read behind the fluff that it begins with. -/
theorem reads_members {root d : Doc} {n : Nat} (hread : root.read input = (.ok n, d)) :
    ∃ rest, fluff input.toList = some rest ∧ Reads rest d (.items .node) := by
  obtain ⟨members, hdocument, -, rfl⟩ := (read_eq_ok_iff root input n d).1 hread
  obtain ⟨⟨docs, left⟩, hfound, rfl⟩ := Option.map_eq_some_iff.1 hdocument
  obtain ⟨rest, hfluff, hitems⟩ := Option.bind_eq_some_iff.1 hfound
  have hchildren : (⟨root.name, .collection .node (gather docs)⟩ : Doc).children = docs :=
    gather_items docs
  exact ⟨rest, hfluff, rfl, none, .inr rfl, _, _, left, hchildren ▸ hitems⟩

/-- **The values of a document and their sources.**  Each value has a source and no other, and each
source is of a value. -/
theorem read_sources {root d : Doc} {n : Nat} (hread : root.read input = (.ok n, d)) (index : Nat)
    (path : List Nat) :
    (∀ e, d.descend (index :: path) = .ok e →
      ∃ target, DocumentSource target e.content (index :: path) input.toList) ∧
    ∀ target content, DocumentSource target content (index :: path) input.toList →
      (∃ e, d.descend (index :: path) = .ok e ∧ e.content = content) ∧
      ∀ target' content', DocumentSource target' content' (index :: path) input.toList →
        target' = target ∧ content' = content := by
  obtain ⟨rest, hfluff, hmembers⟩ := reads_members hread
  refine ⟨fun e hpath ↦ ?_, ?_⟩
  · obtain ⟨child, hchild, hpath⟩ := descend_cons_eq_ok.1 hpath
    obtain ⟨target, hsource⟩ := source_child (fun bytes h ↦ exists_source path h hpath) index
      hmembers hchild
    exact ⟨target, rest, hfluff, hsource⟩
  · rintro target content ⟨rest', hfluff', hsource⟩
    obtain rfl := Option.some.inj (hfluff.symm.trans hfluff')
    refine ⟨hsource.descend hmembers, ?_⟩
    rintro target' content' ⟨rest', hfluff'', hsource'⟩
    obtain rfl := Option.some.inj (hfluff.symm.trans hfluff'')
    exact hsource'.unique hsource

end Doc
end DocGrammar
