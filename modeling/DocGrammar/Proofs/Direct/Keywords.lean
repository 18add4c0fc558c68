import DocGrammar.Proofs.Direct.Sources
import DocGrammar.Proofs.Printing.Utf8

/-!
# Bare words

A bare word where a value has to be is a string, unless it is one of the keywords `null`, `true` and
`false`.  But what may not follow a number may not follow a keyword either, and that includes a
point.  So in front of a point a keyword is a string after all (`Doc.read_bareWord`).

There is one place for that: an element of an array, right in front of a number that begins with its
point.  Everywhere else a point behind a word is an error.
-/

set_option autoImplicit false

namespace DocGrammar

/-- What a bare word stands for by itself. -/
def bareWord (word : String) : Content Doc :=
  if word = "null" then .null
  else if word = "true" then .boolean true
  else if word = "false" then .boolean false
  else .string word

namespace Direct

variable {bytes token left rest : List UInt8} {content : Content Doc}

/-! ## Words -/

theorem identifier_eq_some (h : identifier bytes = some (token, left)) :
    bytes = token ++ left ∧ token = bytes.takeWhile Byte.isIdentifier ∧
      left = bytes.dropWhile Byte.isIdentifier ∧
      ∃ b rest, bytes = b :: rest ∧ Byte.isIdentifierStart b = true := by
  cases bytes with
  | nil => cases h
  | cons b rest =>
    obtain ⟨hb, heq⟩ := Option.ite_none_right_eq_some.1 h
    cases heq
    have hword : Byte.isIdentifier b = true := by simp [Byte.isIdentifier, hb]
    rw [List.takeWhile_cons_of_pos hword, List.dropWhile_cons_of_pos hword, List.cons_append,
      List.takeWhile_append_dropWhile]
    exact ⟨rfl, rfl, rfl, b, rest, rfl, hb⟩

/-- A word does not run on, except into a point. -/
theorem isDelimited_iff (h : identifier bytes = some (token, left)) :
    isDelimited left = true ↔ left.head? ≠ some 0x2E := by
  obtain ⟨-, -, rfl, -⟩ := identifier_eq_some h
  cases hleft : bytes.dropWhile Byte.isIdentifier with
  | nil => simp [isDelimited]
  | cons b rest =>
    have hb : Byte.isIdentifier b = false := by
      have hhead := List.head?_dropWhile_not Byte.isIdentifier bytes
      rwa [hleft] at hhead
    simp [isDelimited, hb]

/-- A keyword is read where it is the whole word and no point follows. -/
theorem word_eq_ite (h : identifier bytes = some (token, left)) {spelling : String}
    (hspelling : ∀ b ∈ Utf8.encode spelling, Byte.isIdentifier b = true) (content : Content Doc) :
    word spelling content bytes =
      if token = Utf8.encode spelling ∧ left.head? ≠ some 0x2E then some (content, left)
      else none := by
  obtain ⟨hbytes, htoken, -, -⟩ := identifier_eq_some h
  rw [word]
  by_cases hword : token = Utf8.encode spelling
  · subst hword
    rw [hbytes, List.drop_left]
    refine if_congr ?_ rfl rfl
    rw [Bool.and_eq_true, isDelimited_iff h]
    exact and_congr_left fun _ ↦
      iff_of_true (List.isPrefixOf_iff_prefix.2 (List.prefix_append _ _)) rfl
  · rw [if_neg, if_neg fun hboth ↦ hword hboth.1]
    intro hboth
    obtain ⟨hfront, hdelimited⟩ := Bool.and_eq_true_iff.1 hboth
    obtain ⟨more, rfl⟩ := List.isPrefixOf_iff_prefix.1 hfront
    rw [List.drop_left] at hdelimited
    rw [List.takeWhile_append_of_pos hspelling] at htoken
    -- what follows the spelling would go on in the same word
    refine hword (htoken.trans ?_)
    cases more with
    | nil => rw [List.takeWhile_nil, List.append_nil]
    | cons b more =>
      have hb : Byte.isIdentifier b = false := by
        cases hb : Byte.isIdentifier b with
        | false => rfl
        | true => simp [isDelimited, hb] at hdelimited
      rw [List.takeWhile_cons_of_neg (by simp [hb]), List.append_nil]

theorem keyword_eq_ite (h : identifier bytes = some (token, left)) :
    keyword bytes =
      if left.head? = some 0x2E then none
      else if token = Utf8.encode "null" then some (.null, left)
      else if token = Utf8.encode "true" then some (.boolean true, left)
      else if token = Utf8.encode "false" then some (.boolean false, left)
      else none := by
  have hletters : ∀ spelling ∈ ["null", "true", "false"], ∀ b ∈ Utf8.encode spelling,
      Byte.isIdentifier b = true := by
    decide +kernel
  rw [keyword, word_eq_ite h (hletters "null" (by decide)),
    word_eq_ite h (hletters "true" (by decide)), word_eq_ite h (hletters "false" (by decide))]
  by_cases hpoint : left.head? = some 0x2E
  · simp [hpoint]
  · simp only [hpoint, ne_eq, not_false_eq_true, and_true, if_false]
    split
    · rfl
    split
    · rfl
    rfl

/-- A value that begins like a word is a keyword or a string. -/
theorem value_word {b : UInt8} (hb : Byte.isIdentifierStart b = true) (depth : Nat) :
    value (depth + 1) (b :: rest) = (keyword (b :: rest)).or (stringValue (b :: rest)) := by
  have hne {c : UInt8} (hc : Byte.isIdentifierStart c = false) : b ≠ c := by
    rintro rfl
    exact Bool.false_ne_true (hc.symm.trans hb)
  rw [value_eq, alternatives, number_eq_none (startsNumber_false hb), Option.or_none,
    vectorValue_eq_none (hne rfl), collection_eq_none .array (hne rfl),
    collection_eq_none .node (hne rfl), Option.none_or, Option.none_or, Option.or_none]

theorem stringValue_word (h : identifier bytes = some (token, left)) :
    stringValue bytes = (Utf8.decode token).map fun word ↦ (.string word, left) := by
  obtain ⟨-, -, -, b, more, rfl, hb⟩ := identifier_eq_some h
  have hne {c : UInt8} (hc : Byte.isIdentifierStart c = false) : b ≠ c := by
    rintro rfl
    exact Bool.false_ne_true (hc.symm.trans hb)
  have hfence : ¬ TextGrammar.fence.isPrefixOf (b :: more) = true := by
    intro hfence
    obtain ⟨rest, hrest⟩ := List.isPrefixOf_iff_prefix.1 hfence
    exact hne rfl (List.cons.inj hrest).1.symm
  rw [stringValue, string, if_neg (hne rfl), if_neg hfence, h, Option.bind_some, text,
    Option.map_map]
  rfl

/-- **Bare words as values.**  A word is what it stands for by itself, but a string in front of a
point. -/
theorem value_bareWord (h : identifier bytes = some (token, left)) {depth : Nat}
    (hread : value depth bytes = some (content, rest)) :
    rest = left ∧ ∃ word, Utf8.encode word = token ∧
      content = if left.head? = some 0x2E then .string word else bareWord word := by
  obtain ⟨-, -, -, b, more, rfl, hb⟩ := identifier_eq_some h
  cases depth with
  | zero => cases hread
  | succ depth =>
    rw [value_word hb, keyword_eq_ite h, stringValue_word h] at hread
    cases hdecode : Utf8.decode token with
    | none =>
      -- keywords are text
      have hne (spelling : String) : token ≠ Utf8.encode spelling := by
        rintro rfl
        rw [Utf8.decode_encode] at hdecode
        cases hdecode
      simp [hdecode, hne] at hread
    | some word =>
      obtain rfl := Utf8.encode_of_decode hdecode
      simp only [hdecode, Utf8.encode_inj, Option.map_some] at hread
      have hfound : some (content, rest) =
          some (if left.head? = some 0x2E then .string word else bareWord word, left) := by
        rw [← hread, bareWord]
        split_ifs
        all_goals rfl
      obtain ⟨rfl, rfl⟩ := Prod.mk.inj (Option.some.inj hfound)
      exact ⟨rfl, word, rfl, rfl⟩

/-! ## In front of a point -/

theorem fluff_point (h : left.head? = some 0x2E) : fluff left = some left := by
  obtain ⟨rest, rfl⟩ := List.head?_eq_some_iff.1 h
  exact fluffFrom_solid (by decide) (by decide) rest

/-- A member does not begin with a point. -/
theorem member_point (h : left.head? = some 0x2E)
    (read : List UInt8 → Option (Content Doc × List UInt8)) : member read left = none := by
  obtain ⟨rest, rfl⟩ := List.head?_eq_some_iff.1 h
  rw [member, heading, string_eq_none (by decide) (by decide) rfl]
  rfl

theorem MayClose.point_ne {form : Form} {closer : Option UInt8} (h : MayClose form closer)
    (hpoint : left.head? = some 0x2E) : left.head? ≠ closer := by
  rw [hpoint]
  cases form with
  | array => cases h; decide
  | node => rcases h with rfl | rfl <;> decide

/-- Members do not begin with a point, and there would have to be one in front of the closing
brace. -/
theorem not_reads_members_point (hpoint : left.head? = some 0x2E) {d : Doc} :
    ¬ Reads left d (.items .node) := by
  intro h
  obtain ⟨child, docs, hchildren⟩ := h.exists_child fun _ hcloses ↦ hcloses.point_ne hpoint
  obtain ⟨depth, rest, left', hitem, -⟩ := h.cons hchildren
  rw [itemOf, member_point hpoint] at hitem
  cases hitem

/-- Elements may begin with a point, and then there is one more. -/
theorem Source.next_point {target : List UInt8} {child d : Doc} {depth : Nat}
    (hread : value depth target = some (child.content, left)) (hpoint : left.head? = some 0x2E)
    (hmore : Reads left d (.items .array)) :
    ∃ content', Source left content' (.items .array) [1] target := by
  obtain ⟨next, docs, depth', rest, left', -, hnext, -⟩ := hmore.element (by rw [hpoint]; decide)
  have hitem : itemOf .array (value depth) target = some (⟨.empty, child.content⟩, left) := by
    rw [itemOf, Direct.element, hread]
    rfl
  exact ⟨next.content, .later hitem (fluff_point hpoint) (.element (.here hnext))⟩

/-- **A value in front of a point** is an element of an array, and there is one more behind it. -/
theorem Source.beside_point {target : List UInt8} {stage : Stage} {path : List Nat}
    (h : Source target content stage path bytes) {depth : Nat}
    (hread : value depth target = some (content, left)) (hpoint : left.head? = some 0x2E)
    {parent : List Nat} {index : Nat} (hpath : path = parent ++ [index]) {d : Doc}
    (hd : Reads bytes d stage) :
    (∃ p, d.descend parent = .ok p ∧ p.tag = .array) ∧
      ∃ content', Source left content' stage (parent ++ [index + 1]) bytes := by
  induction h generalizing parent index d with
  | here => cases parent <;> cases hpath
  | inside hfluff _ ih =>
    obtain ⟨hparent, content', hbeside⟩ := ih hpath (reads_inside hd hfluff)
    exact ⟨hparent, content', .inside hfluff hbeside⟩
  | element h ih =>
    obtain ⟨child, docs, depth', rest, left', hchildren, hchild, hfluff, hmore⟩ :=
      hd.element h.head?_ne
    cases parent with
    | nil =>
      cases hpath
      cases h with
      | inside _ h => cases h
      | here =>
        obtain ⟨-, rfl⟩ := value_unique hread hchild
        obtain rfl := Option.some.inj ((fluff_point hpoint).symm.trans hfluff)
        exact ⟨⟨d, rfl, hd.1⟩, Source.next_point hchild hpoint hmore⟩
    | cons first parent =>
      obtain ⟨rfl, rfl⟩ := List.cons.inj hpath
      obtain ⟨⟨p, hp, harray⟩, content', hbeside⟩ := ih rfl ⟨depth', rest, hchild⟩
      exact ⟨⟨p, descend_first hchildren hp, harray⟩, content', .element hbeside⟩
  | member hname hstart h ih =>
    obtain ⟨child, docs, depth', rest, left', hchildren, hchild, hfluff, hmore⟩ :=
      hd.member hname hstart
    cases parent with
    | nil =>
      cases hpath
      cases h with
      | inside _ h => cases h
      | here =>
        obtain ⟨-, rfl⟩ := value_unique hread hchild
        obtain rfl := Option.some.inj ((fluff_point hpoint).symm.trans hfluff)
        exact absurd hmore (not_reads_members_point hpoint)
    | cons first parent =>
      obtain ⟨rfl, rfl⟩ := List.cons.inj hpath
      obtain ⟨⟨p, hp, harray⟩, content', hbeside⟩ := ih rfl ⟨depth', rest, hchild⟩
      exact ⟨⟨p, descend_first hchildren hp, harray⟩, content', .member hname hstart hbeside⟩
  | later hitem hfluff _ ih =>
    obtain ⟨docs, hchildren, hmore⟩ := hd.of_item hitem hfluff
    cases parent with
    | nil =>
      cases hpath
      obtain ⟨⟨p, hp, harray⟩, content', hbeside⟩ := ih (List.nil_append _).symm hmore
      cases hp
      exact ⟨⟨d, rfl, hd.1.trans harray⟩, content', .later hitem hfluff hbeside⟩
    | cons first parent =>
      obtain ⟨rfl, rfl⟩ := List.cons.inj hpath
      obtain ⟨⟨p, hp, harray⟩, content', hbeside⟩ := ih (List.cons_append ..).symm hmore
      exact ⟨⟨p, descend_later hchildren hp, harray⟩, content', .later hitem hfluff hbeside⟩

/-- What begins with a point is a decimal. -/
theorem value_point (h : bytes.head? = some 0x2E) {depth : Nat}
    (hread : value depth bytes = some (content, rest)) : content.tag = .decimal := by
  obtain ⟨more, rfl⟩ := List.head?_eq_some_iff.1 h
  cases depth with
  | zero => cases hread
  | succ depth =>
    have hinteger : integer (0x2E :: more) = none := rfl
    rw [value_number (by decide), number, hinteger, Option.or_none] at hread
    obtain ⟨found, -, hread⟩ := Option.bind_eq_some_iff.1 hread
    obtain ⟨numeral, -, hread⟩ := Option.bind_eq_some_iff.1 hread
    obtain ⟨-, heq⟩ := Option.ite_none_right_eq_some.1 hread
    cases heq
    rfl

theorem DocumentSource.reads {target : List UInt8} {path : List Nat}
    (h : DocumentSource target content path bytes) :
    ∃ depth left, value depth target = some (content, left) := by
  obtain ⟨rest, -, hsource⟩ := h
  exact hsource.reads

end Direct

/-! ## The words of a document -/

namespace Doc

open Direct

variable {input : Array UInt8}

/-- **The bare words of a document.**  Every value has a source, and no other; and if that is a bare
word, then the value is what the word stands for by itself, unless it stands in front of a point.
There the value is a string, whatever the word; it is an element of an array, and the next one is a
decimal. -/
theorem read_bareWord {root d e : Doc} {n : Nat} (hread : root.read input = (.ok n, d))
    {parent : List Nat} {index : Nat} (hpath : d.descend (parent ++ [index]) = .ok e) :
    ∃ target, DocumentSource target e.content (parent ++ [index]) input.toList ∧
      (∀ target' content, DocumentSource target' content (parent ++ [index]) input.toList →
        target' = target) ∧
      ∀ token left, identifier target = some (token, left) → ∃ word, Utf8.encode word = token ∧
        (left.head? ≠ some 0x2E → e.content = bareWord word) ∧
        (left.head? = some 0x2E → e.content = .string word ∧
          (∃ p, d.descend parent = .ok p ∧ p.tag = .array) ∧
          ∃ next, d.descend (parent ++ [index + 1]) = .ok next ∧ next.tag = .decimal) := by
  obtain ⟨first, path, hcons⟩ : ∃ first path, parent ++ [index] = first :: path :=
    List.exists_cons_of_ne_nil (by simp)
  obtain ⟨hexists, hunique⟩ := read_sources hread first path
  rw [← hcons] at hexists hunique
  obtain ⟨target, hsource⟩ := hexists e hpath
  refine ⟨target, hsource, fun target' content h ↦ ((hunique _ _ hsource).2 _ _ h).1,
    fun token left htoken ↦ ?_⟩
  obtain ⟨depth, left', hvalue⟩ := hsource.reads
  obtain ⟨rfl, word, hword, hcontent⟩ := value_bareWord htoken hvalue
  refine ⟨word, hword, fun hpoint ↦ by rw [hcontent, if_neg hpoint], fun hpoint ↦ ?_⟩
  obtain ⟨rest, hfluff, hsource⟩ := hsource
  obtain ⟨rest', hfluff', hmembers⟩ := reads_members hread
  obtain rfl := Option.some.inj (hfluff.symm.trans hfluff')
  obtain ⟨harray, content', hbeside⟩ := hsource.beside_point hvalue hpoint rfl hmembers
  obtain ⟨next, hnext, rfl⟩ := hbeside.descend hmembers
  obtain ⟨depth', left'', hnumber⟩ := hbeside.reads
  exact ⟨by rw [hcontent, if_pos hpoint], harray, next, hnext, value_point hpoint hnumber⟩

/-- What the direct reader reads becomes some document. -/
theorem exists_read (input : Array UInt8) (h : (Direct.document input.toList).isSome = true)
    (root : Doc) :
    ∃ d, root.read input = (.ok input.size, d) := by
  obtain ⟨members, hdocument⟩ := Option.isSome_iff_exists.1 h
  exact ⟨_, read_of_some hdocument root⟩

/-- The bytes `a = true`. -/
def loneWord : Array UInt8 := #[0x61, 0x20, 0x3D, 0x20, 0x74, 0x72, 0x75, 0x65]

/-- The bytes `a = [null.5]`. -/
def pointedWord : Array UInt8 :=
  #[0x61, 0x20, 0x3D, 0x20, 0x5B, 0x6E, 0x75, 0x6C, 0x6C, 0x2E, 0x35, 0x5D]

theorem loneWord_source : ∃ content,
    DocumentSource (loneWord.toList.drop 4) content [0] loneWord.toList := by
  have hname : heading loneWord.toList = some ("a", loneWord.toList.drop 3) := by decide
  have hread : (value 1 (loneWord.toList.drop 4)).isSome = true := by decide
  obtain ⟨⟨content, left⟩, hread⟩ := Option.isSome_iff_exists.1 hread
  exact ⟨content, loneWord.toList, by decide,
    .member hname (by decide) (.here hread)⟩

theorem pointedWord_source : ∃ content,
    DocumentSource (pointedWord.toList.drop 5) content [0, 0] pointedWord.toList := by
  have hname : heading pointedWord.toList = some ("a", pointedWord.toList.drop 3) := by
    decide
  have hbracket : fluff (pointedWord.toList.drop 3) =
      some (TextGrammar.opener .array :: pointedWord.toList.drop 5) := by
    decide
  have hread : (value 1 (pointedWord.toList.drop 5)).isSome = true := by decide
  obtain ⟨⟨content, left⟩, hread⟩ := Option.isSome_iff_exists.1 hread
  exact ⟨content, pointedWord.toList, by decide,
    .member hname hbracket (.inside (by decide) (.element (.here hread)))⟩

theorem loneWord_identifier :
    identifier (loneWord.toList.drop 4) = some (Utf8.encode "true", []) := by
  decide

theorem pointedWord_identifier :
    identifier (pointedWord.toList.drop 5) = some (Utf8.encode "null", [0x2E, 0x35, 0x5D]) := by
  decide

/-- A keyword at the end of the input, and one in front of a point. -/
theorem read_bareWord_pointed :
    (∃ d e, ({} : Doc).read loneWord = (.ok 8, d) ∧ d.descend ([] ++ [0]) = .ok e ∧
      e.content = .boolean true) ∧
    ∃ d e, ({} : Doc).read pointedWord = (.ok 12, d) ∧ d.descend ([0] ++ [0]) = .ok e ∧
      e.content = .string "null" ∧ ∃ next, d.descend [0, 1] = .ok next ∧ next.tag = .decimal := by
  constructor
  · obtain ⟨d, hread⟩ := exists_read loneWord (by decide) {}
    obtain ⟨content, hsource⟩ := loneWord_source
    obtain ⟨⟨e, hpath, rfl⟩, -⟩ := (read_sources hread 0 []).2 _ _ hsource
    change d.descend ([] ++ [0]) = .ok e at hpath
    obtain ⟨target, -, hunique, hword⟩ := read_bareWord hread hpath
    obtain rfl := hunique _ _ hsource
    obtain ⟨word, hspelling, hlone, -⟩ := hword _ _ loneWord_identifier
    obtain rfl := Utf8.encode_inj.1 hspelling
    exact ⟨d, e, hread, hpath, hlone nofun⟩
  · obtain ⟨d, hread⟩ := exists_read pointedWord (by decide +kernel) {}
    obtain ⟨content, hsource⟩ := pointedWord_source
    obtain ⟨⟨e, hpath, rfl⟩, -⟩ := (read_sources hread 0 [0]).2 _ _ hsource
    change d.descend ([0] ++ [0]) = .ok e at hpath
    obtain ⟨target, -, hunique, hword⟩ := read_bareWord hread hpath
    obtain rfl := hunique _ _ hsource
    obtain ⟨word, hspelling, -, hpointed⟩ := hword _ _ pointedWord_identifier
    obtain rfl := Utf8.encode_inj.1 hspelling
    obtain ⟨hcontent, -, hnext⟩ := hpointed rfl
    exact ⟨d, e, hread, hpath, hcontent, hnext⟩

/-- So there is a string that is spelled `null` without quotes. -/
theorem read_keyword_as_string :
    ∃ d e target left, ({} : Doc).read pointedWord = (.ok 12, d) ∧ d.descend [0, 0] = .ok e ∧
      e.content = .string "null" ∧ DocumentSource target e.content [0, 0] pointedWord.toList ∧
      identifier target = some (Utf8.encode "null", left) ∧
      ∃ b ∈ left.head?, Byte.isIdentifier b = false := by
  obtain ⟨d, hread⟩ := exists_read pointedWord (by decide +kernel) {}
  obtain ⟨content, hsource⟩ := pointedWord_source
  obtain ⟨⟨e, hpath, rfl⟩, -⟩ := (read_sources hread 0 [0]).2 _ _ hsource
  obtain ⟨depth, left, hvalue⟩ := hsource.reads
  obtain ⟨-, word, hspelling, hcontent⟩ := value_bareWord pointedWord_identifier hvalue
  obtain rfl := Utf8.encode_inj.1 hspelling
  exact ⟨d, e, _, _, hread, hpath, hcontent, hsource, pointedWord_identifier, _, rfl, rfl⟩

end Doc
end DocGrammar
