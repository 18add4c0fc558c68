import DocGrammar.Proofs.Direct.Building

/-!
# Strings, scalars and vectors

The rules that end in one of the actions `keepRaw`, `keepUnescaped`, `emitScalar`, `emitString` and
`emitVector`, and the rule for malformed numbers, which matches nothing.  None of them changes the
builder unless it succeeds.
-/

set_option autoImplicit false

namespace DocGrammar
namespace Direct

open TextGrammar (TextRule grammar)

/-! ## Strings -/

/-- A text becomes the last string that was read. -/
def keep (text : String) (b : Builder) : Builder := { b with scratch := text }

/-- The text that the last span spells, after something has been done to it. -/
def spelled (resolve : List UInt8 → List UInt8) (values : List Value) : Option String :=
  Utf8.decode (resolve ((lastSpan values).getD []))

theorem keepText_some {text : Option String} {x : String} (h : text = some x) {input : Array UInt8}
    (s : State input Builder) (start : Position) :
    TextGrammar.keepText text s start = TextGrammar.built s start (keep x) := by
  rw [h]
  rfl

theorem keepText_none {text : Option String} (h : text = none) {input : Array UInt8}
    (s : State input Builder) (start : Position) :
    ∃ reason, TextGrammar.keepText text s start = s.fail reason := by
  rw [h]
  exact ⟨_, rfl⟩

theorem identifier_builds : TextGrammar.identifier.Builds 4
    (fun bytes ↦ (identifier bytes).bind text) keep (fun _ _ ↦ True) fun _ ↦ True := by
  refine Rule.Builds.after (spelled id) identifier_reads (fun s start _ h ↦ keepText_some h s start)
    (fun s start h ↦ keepText_none h s start) fun bytes ↦ ?_
  rw [identifierScanner_eq]
  cases identifier bytes with
  | none => rfl
  | some found =>
    obtain ⟨token, rest⟩ := found
    rfl

/-- A string between quotes. -/
def quotedString : List UInt8 → Option (String × List UInt8)
  | [] => none
  | b :: rest => if b = 0x22 then (quotedBody rest).bind text else none

theorem quotedString_builds : TextGrammar.quotedString.Builds 5 quotedString keep
    (fun _ _ ↦ True) fun _ ↦ True := by
  refine Rule.Builds.after (spelled Quoted.unescape) quoted_reads
    (fun s start _ h ↦ keepText_some h s start) (fun s start h ↦ keepText_none h s start)
    fun bytes ↦ ?_
  cases bytes with
  | nil => rfl
  | cons b rest =>
    by_cases hb : b = 0x22
    · subst hb
      have hspec := quotedScanner_spec rest
      rw [quotedString, if_pos rfl]
      cases hrest : quotedBody rest with
      | none =>
        rw [hrest] at hspec
        simp only at hspec
        rw [hspec]
        rfl
      | some found =>
        obtain ⟨body, left⟩ := found
        rw [hrest] at hspec
        obtain ⟨token, values, hscan, hbody⟩ := hspec
        rw [hscan]
        simp only [spelled, hbody, Option.bind_some, text]
    · rw [quotedScanner_fail hb, quotedString, if_neg hb]

/-- A string between fences. -/
def blockString (bytes : List UInt8) : Option (String × List UInt8) :=
  if TextGrammar.fence.isPrefixOf bytes then (blockBody (bytes.drop 3)).bind text else none

theorem blockString_builds : TextGrammar.blockString.Builds 3 blockString keep
    (fun _ _ ↦ True) fun _ ↦ True := by
  refine Rule.Builds.after (spelled id) block_reads (fun s start _ h ↦ keepText_some h s start)
    (fun s start h ↦ keepText_none h s start) fun bytes ↦ ?_
  by_cases hfence : TextGrammar.fence.isPrefixOf bytes = true
  · have hspec := blockScanner_spec hfence
    rw [blockString, if_pos hfence]
    cases hbody : blockBody (bytes.drop 3) with
    | none =>
      rw [hbody] at hspec
      simp only at hspec
      rw [hspec]
      rfl
    | some found =>
      obtain ⟨body, left⟩ := found
      rw [hbody] at hspec
      obtain ⟨token, hscan⟩ := hspec
      rw [hscan]
      rfl
  · rw [blockScanner_fail hfence, blockString, if_neg hfence]

/-- The first byte tells the three spellings apart. -/
theorem string_eq (bytes : List UInt8) :
    string bytes = ((identifier bytes).bind text).or
      ((quotedString bytes).or ((blockString bytes).or none)) := by
  cases bytes with
  | nil => rfl
  | cons b rest =>
    rw [string, quotedString, blockString, Option.or_none]
    by_cases hquote : b = 0x22
    · subst hquote
      rw [if_pos rfl, if_pos rfl, if_neg (by simp [TextGrammar.fence, List.isPrefixOf]),
        Option.or_none]
      rfl
    · rw [if_neg hquote, if_neg hquote, Option.none_or]
      by_cases hfence : TextGrammar.fence.isPrefixOf (b :: rest) = true
      · rw [if_pos hfence, if_pos hfence]
        obtain ⟨left, hleft⟩ := List.isPrefixOf_iff_prefix.1 hfence
        obtain ⟨rfl, -⟩ := List.cons.inj hleft
        rfl
      · rw [if_neg hfence, if_neg hfence, Option.or_none]

theorem string_builds : TextGrammar.string.Builds 6 string keep (fun _ _ ↦ True) fun _ ↦ True := by
  rw [funext string_eq]
  exact (ChoiceBuilds.cons (identifier_builds.mono (by decide)) <|
    .cons quotedString_builds <| .cons (blockString_builds.mono (by decide)) .nil).builds _

/-- A string as a value. -/
def stringValue (bytes : List UInt8) : Option (Content Doc × List UInt8) :=
  (string bytes).map fun (text, rest) ↦ (.string text, rest)

/-- A finished value. -/
def emit (content : Content Doc) (b : Builder) : Builder := b.emit content

/-- No string is waiting to be used. -/
def Unread (b : Builder) : Prop := b.scratch = ""

theorem emitString_builds :
    (TextGrammar.after TextGrammar.string TextGrammar.emitString).Builds 7 stringValue emit
      (fun b _ ↦ Unread b) fun _ ↦ True := by
  refine .map Content.string (Rule.Builds.imp (string_builds.closing fun s start ↦ rfl)
    (fun _ _ _ ↦ trivial) (fun text b _ hb ↦ ?_) fun _ _ ↦ trivial)
  obtain ⟨current, enclosing, pending, scratch⟩ := b
  cases (show scratch = "" from hb)
  rfl

/-! ## Keywords -/

section

variable {N U : Type} {g : Grammar N U}

/-- The scanner of a keyword. -/
def keywordScanner (spelling : String) (value : Value) : Scanner := fun bytes ↦
  let letters := Utf8.encode spelling
  if letters.isPrefixOf bytes then .ok letters (bytes.drop letters.length) [value] else .fail

theorem keyword_reads (name : Option String) (spelling : String) (value : Value) :
    (⟨name, {}, (Leaf.keyword spelling value).kind⟩ : Rule N U).Reads g true 2
      (keywordScanner spelling value) := by
  have hact : Evaluate.Closes (U := U) (fun state _ ↦ state.okWith value)
      fun _ values ↦ some (values ++ [value]) := by
    intro input s s₁ token rest values hs ht
    have hpushed := ht.trans (s₁.push_took value)
    rw [List.append_nil, ht.rest_eq, ht.user_eq] at hpushed
    exact ⟨_, rfl, hpushed⟩
  have hreads : (⟨name, {}, (Leaf.keyword spelling value).kind⟩ : Rule N U).Reads g true 2 _ :=
    Rule.Reads.closing (.literal (m := { lookahead := true }) (Utf8.encode spelling)) @hact
  refine hreads.congr fun bytes ↦ ?_
  show Scanner.closing (Scanner.lookahead (Scanner.word _)) _ bytes = _
  rw [Scanner.closing, Scanner.lookahead, Scanner.word, keywordScanner]
  by_cases h : (Utf8.encode spelling).isPrefixOf bytes = true
  · simp only [if_pos h, List.nil_append]
  · simp only [if_neg h]

end

/-! ## Scalars -/

namespace Gives

variable {p : Scanner} {ps : List Scanner}
  {read read' : List UInt8 → Option (Content Doc × List UInt8)}

theorem nil : (Scanner.firstOf []).Gives fun _ ↦ none := fun _ ↦ rfl

theorem cons (h : p.Gives read) (h' : (Scanner.firstOf ps).Gives read') :
    (Scanner.firstOf (p :: ps)).Gives fun bytes ↦ (read bytes).or (read' bytes) := by
  intro bytes
  have hscan := h bytes
  dsimp only
  rw [Scanner.firstOf]
  cases hread : read bytes with
  | some found =>
    rw [hread] at hscan
    obtain ⟨token, value, hp, hvalue⟩ := hscan
    rw [hp]
    exact ⟨token, value, rfl, hvalue⟩
  | none =>
    rw [hread] at hscan
    simp only at hscan
    rw [hscan]
    exact h' bytes

end Gives

/-- A keyword that does not run on is a word. -/
theorem keyword_gives (spelling : String) (value : Value) {content : Content Doc}
    (h : TextGrammar.scalar? value = some content) :
    (Scanner.inOrder [keywordScanner spelling value, Scanner.delimiter] false).Gives
      (word spelling content) := by
  intro bytes
  rw [word, Scanner.inOrder, keywordScanner]
  by_cases hword : (Utf8.encode spelling).isPrefixOf bytes = true
  · by_cases hdelimited : isDelimited (bytes.drop (Utf8.encode spelling).length) = true
    · simp [hword, hdelimited, Scanner.inOrder, Scanner.delimiter, Scan.after, h]
    · simp [hword, hdelimited, Scanner.inOrder, Scanner.delimiter, Scan.after]
  · simp [hword]

/-- No bytes begin with both truth values. -/
theorem not_false_of_true {bytes : List UInt8}
    (h : (Utf8.encode "true").isPrefixOf bytes = true) :
    ¬ (Utf8.encode "false").isPrefixOf bytes = true := by
  intro h'
  obtain ⟨rest, rfl⟩ := List.isPrefixOf_iff_prefix.1 h
  obtain ⟨rest', hrest'⟩ := List.isPrefixOf_iff_prefix.1 h'
  exact absurd (congrArg List.head? hrest') (by decide : some (0x66 : UInt8) ≠ some 0x74)

/-- The scanner of a truth value that does not run on. -/
def booleanScanner : Scanner :=
  Scanner.inOrder
    [Scanner.firstOf [keywordScanner "true" (.bool true), keywordScanner "false" (.bool false)],
      Scanner.delimiter] false

theorem boolean_gives : booleanScanner.Gives fun bytes ↦
    (word "true" (.boolean true) bytes).or (word "false" (.boolean false) bytes) := by
  intro bytes
  dsimp only
  by_cases htrue : (Utf8.encode "true").isPrefixOf bytes = true
  · have hscan : booleanScanner bytes =
        Scanner.inOrder [keywordScanner "true" (.bool true), Scanner.delimiter] false bytes := by
      simp only [booleanScanner, Scanner.inOrder, Scanner.firstOf, keywordScanner, if_pos htrue]
    have hword : word "false" (.boolean false) bytes = none := by
      simp only [word, not_false_of_true htrue, Bool.false_and, Bool.false_eq_true, if_false]
    rw [hscan, hword, Option.or_none]
    exact keyword_gives "true" (.bool true) rfl bytes
  · have hscan : booleanScanner bytes =
        Scanner.inOrder [keywordScanner "false" (.bool false), Scanner.delimiter] false bytes := by
      by_cases hfalse : (Utf8.encode "false").isPrefixOf bytes = true
      · simp only [booleanScanner, Scanner.inOrder, Scanner.firstOf, keywordScanner, if_neg htrue,
          if_pos hfalse]
      · simp only [booleanScanner, Scanner.inOrder, Scanner.firstOf, keywordScanner, if_neg htrue,
          if_neg hfalse]
    have hword : word "true" (.boolean true) bytes = none := by
      simp only [word, htrue, Bool.false_and, Bool.false_eq_true, if_false]
    rw [hscan, hword, Option.none_or]
    exact keyword_gives "false" (.bool false) rfl bytes

/-- The scanner of a keyword or a number. -/
def scalarScanner : Scanner :=
  Scanner.firstOf
    [Scanner.inOrder [keywordScanner "null" .null, Scanner.delimiter] false, booleanScanner,
      delimitedDecimal, delimitedInteger]

theorem scalarScanner_gives :
    scalarScanner.Gives fun bytes ↦ (keyword bytes).or (number bytes) := by
  have h := Gives.cons (keyword_gives "null" .null rfl) <| Gives.cons boolean_gives <|
    Gives.cons delimitedDecimal_gives <| Gives.cons delimitedInteger_gives Gives.nil
  simp only [Option.or_none, ← Option.or_assoc] at h
  simp only [keyword, number, ← Option.or_assoc]
  exact h

theorem scalar_builds : TextGrammar.scalar.Builds 10 (fun bytes ↦ (keyword bytes).or (number bytes))
    emit (fun _ _ ↦ True) fun _ ↦ True := by
  have hreads : (Rule.anyOf
      [TextGrammar.delimited Leaf.null, TextGrammar.delimited Leaf.boolean,
        TextGrammar.delimited Leaf.decimalAny,
        TextGrammar.delimited Leaf.signedAny]).Reads grammar true 9 scalarScanner :=
    .anyOf <| .cons ((delimited_reads (keyword_reads _ _ _)).mono (by decide)) <|
      .cons
        ((delimited_reads (.anyOf <| .cons (keyword_reads _ _ _) <|
          .cons (keyword_reads _ _ _) .nil)).mono (by decide)) <|
      .cons (delimited_reads decimalAny_reads) <| .cons (delimited_reads signedAny_reads) .nil
  refine Rule.Builds.after (fun values ↦ values.getLast?.bind TextGrammar.scalar?) hreads
    (fun s start content h ↦ ?_) (fun s start h ↦ ?_) fun bytes ↦ ?_
  · rw [TextGrammar.emitScalar, h]
    rfl
  · rw [TextGrammar.emitScalar, h]
    exact ⟨_, rfl⟩
  · have hgives := scalarScanner_gives bytes
    dsimp only at hgives ⊢
    cases hread : (keyword bytes).or (number bytes) with
    | some found =>
      rw [hread] at hgives
      obtain ⟨token, value, hscan, hvalue⟩ := hgives
      rw [hscan]
      simp only [List.getLast?_singleton, Option.bind_some, hvalue, Option.map_some]
    | none =>
      rw [hread] at hgives
      simp only at hgives
      rw [hgives]

/-! ## Malformed numbers -/

/-- A byte that may stand in a word that begins like a number. -/
def isNumberLike (b : UInt8) : Bool := Byte.isIdentifier b || b == 0x2B || b == 0x2E

theorem rejectNumber_eq {input : Array UInt8} (s : State input Builder) (start : Position) :
    ∃ reason, TextGrammar.rejectNumber s start = s.fail reason := by
  rw [TextGrammar.rejectNumber]
  split
  · split
    · exact ⟨_, rfl⟩
    · exact ⟨_, rfl⟩
  · exact ⟨_, rfl⟩

/-- The rule for the span of such a word. -/
def numberSpan : TextRule :=
  Rule.flat <| .allOf
    [.anyOf [.range 0x30 0x39, .byte 0x2B, .byte 0x2D, .byte 0x2E],
      (Rule.anyOf
        [.range 0x61 0x7A, .range 0x41 0x5A, .range 0x30 0x39, .range 0x80 0xFF, .byte 0x5F,
          .byte 0x2D, .byte 0x2B, .byte 0x2E]).repeatedOrNone]

theorem numberSpan_reads {loud : Bool} : numberSpan.Reads grammar loud 3
      (headed startsNumber isNumberLike) := by
  have hstart : (Rule.anyOf [.range 0x30 0x39, .byte 0x2B, .byte 0x2D, .byte 0x2E] :
      TextRule).Reads grammar false 2 (Scanner.byte startsNumber) :=
    Rule.Reads.oneOf
      (.cons (.range _ _) <| .cons (.byte _) <| .cons (.byte _) <| .cons (.byte _) .nil)
      (Byte.forall_of_lt (by decide +kernel))
  have hmore : (Rule.anyOf
      [.range 0x61 0x7A, .range 0x41 0x5A, .range 0x30 0x39, .range 0x80 0xFF, .byte 0x5F,
        .byte 0x2D, .byte 0x2B, .byte 0x2E] |>.repeatedOrNone : TextRule).Reads grammar false 2
      (Scanner.optional (Scanner.run isNumberLike)) :=
    Scanner.repeated_byte isNumberLike ▸ Rule.Reads.oneOf
      (.cons (.range _ _) <| .cons (.range _ _) <| .cons (.range _ _) <| .cons (.range _ _) <|
        .cons (.byte _) <| .cons (.byte _) <| .cons (.byte _) <| .cons (.byte _) .nil)
      (Byte.forall_of_lt (by decide +kernel))
  exact .allOf (m := { flat := true }) <| .cons hstart.of_quiet <| .cons hmore.of_quiet .nil

/-- The rule for malformed numbers never matches. -/
theorem malformedNumber_reads : TextGrammar.malformedNumber.Reads grammar true 4 fun _ ↦ .fail := by
  have hact : Evaluate.Closes TextGrammar.rejectNumber fun _ _ ↦ none := by
    intro input s s₁ token rest values hs ht
    obtain ⟨reason, hreason⟩ := rejectNumber_eq s₁ s.position
    exact ⟨_, hreason, ht.beyond.trans (s₁.failAt_same _ _).beyond⟩
  have hreads : TextGrammar.malformedNumber.Reads grammar true 4
      (Scanner.closing (headed startsNumber isNumberLike) fun _ _ ↦ none) :=
    .closing numberSpan_reads hact
  refine hreads.congr fun bytes ↦ ?_
  cases bytes with
  | nil => rfl
  | cons b rest =>
    rw [Scanner.closing, headed_cons]
    by_cases hb : startsNumber b = true
    · simp only [if_pos hb]
    · simp only [if_neg hb]

/-! ## Vectors -/

/-- The scanner of a number in a vector. -/
def numberScanner : Scanner := Scanner.firstOf [delimitedDecimal, delimitedInteger, fun _ ↦ .fail]

theorem numberScanner_gives : numberScanner.Gives number := by
  have h := Gives.cons delimitedDecimal_gives <| Gives.cons delimitedInteger_gives <|
    Gives.cons (show Scanner.Gives (fun _ ↦ .fail) (fun _ ↦ none) from fun _ ↦ rfl) Gives.nil
  simp only [Option.or_none] at h
  exact h

/-- The values are those of the numbers, one by one. -/
def Stand (values : List Value) (numbers : List (Content Doc)) : Prop :=
  List.Forall₂ (fun value content ↦ TextGrammar.scalar? value = some content) values numbers

/-- The scanner of a number in a vector and the fluff behind it. -/
def vectorStep : Scanner := Scanner.inOrder [numberScanner, fluffScanner] false

theorem vectorStep_spec (bytes : List UInt8) :
    match withFluff number bytes with
    | some (content, rest) => ∃ token value, vectorStep bytes = .ok token rest [value] ∧
        TextGrammar.scalar? value = some content
    | none => vectorStep bytes = .fail := by
  have hgives := numberScanner_gives bytes
  rw [vectorStep, Scanner.inOrder, withFluff]
  cases hnumber : number bytes with
  | none =>
    rw [hnumber] at hgives
    simp only at hgives
    rw [hgives]
    rfl
  | some found =>
    obtain ⟨content, left⟩ := found
    rw [hnumber] at hgives
    obtain ⟨token, value, hscan, hvalue⟩ := hgives
    rw [hscan, Option.bind_some]
    cases hfluff : fluff left with
    | none => simp [Scanner.inOrder, fluffScanner, hfluff, Scan.after]
    | some rest => simp [Scanner.inOrder, fluffScanner, hfluff, Scan.after, hvalue]

theorem vectorSteps_reads : List.Forall₂ (Rule.Reads grammar true 9)
    [.anyOf
        [TextGrammar.delimited Leaf.decimalAny, TextGrammar.delimited Leaf.signedAny,
          TextGrammar.malformedNumber],
      TextGrammar.act Fluff.skip] [numberScanner, fluffScanner] :=
  .cons
    (.anyOf <| .cons (delimited_reads decimalAny_reads) <|
      .cons (delimited_reads signedAny_reads) <|
      .cons (malformedNumber_reads.mono (by decide)) .nil) <|
    .cons (skip_reads.mono (by decide)) .nil

theorem vectorStep_reads : (TextGrammar.thenFluff
      (.anyOf
        [TextGrammar.delimited Leaf.decimalAny, TextGrammar.delimited Leaf.signedAny,
          TextGrammar.malformedNumber])).Reads grammar true 10 vectorStep :=
  Rule.Reads.of_kind (m := {}) fun input budget hbudget ↦
    Evaluate.inOrder_scans (vectorSteps_reads.imp fun _ _ h ↦ h input budget hbudget) false

theorem vectorStep_consumes : vectorStep.Consumes := by
  intro bytes token rest values hscan
  have happend := vectorStep_reads.append_eq { current := { form := .node } } hscan
  have hspec := vectorStep_spec bytes
  cases hstep : withFluff number bytes with
  | none =>
    rw [hstep] at hspec
    cases hspec.symm.trans hscan
  | some found =>
    obtain ⟨content, left⟩ := found
    have hshort := withFluff_shortens number_shortens hstep
    rw [hstep] at hspec
    obtain ⟨token', value, hscan', -⟩ := hspec
    cases hscan.symm.trans hscan'
    refine ⟨fun htoken ↦ ?_, hshort⟩
    rw [happend, htoken, List.nil_append] at hshort
    exact Nat.lt_irrefl _ hshort

/-- **The engine and the direct reader agree on numbers with fluff behind each**, as long as there
are enough rounds: either both come to the closing byte, or neither does. -/
theorem again_numbers : ∀ (rounds : Nat) (bytes : List UInt8), bytes.length < rounds →
    ∃ token rest values, Scanner.again vectorStep rounds bytes = (token, rest, values) ∧
      match items number (some 0x29) rounds bytes with
      | some (numbers, left) => rest = 0x29 :: left ∧ Stand values numbers
      | none => rest.head? ≠ some 0x29
  | 0, _, h => absurd h (Nat.not_lt_zero _)
  | rounds + 1, bytes, h => by
    have hspec := vectorStep_spec bytes
    rw [items, Scanner.again]
    by_cases hhead : bytes.head? = some 0x29
    · obtain ⟨left, rfl⟩ := List.head?_eq_some_iff.1 hhead
      rw [withFluff, number_eq_none (by decide), Option.bind_none] at hspec
      simp only at hspec
      rw [hspec, if_pos hhead]
      exact ⟨_, _, _, rfl, rfl, .nil⟩
    rw [if_neg hhead]
    cases hstep : withFluff number bytes with
    | none =>
      rw [hstep] at hspec
      simp only at hspec
      rw [hspec]
      exact ⟨_, _, _, rfl, hhead⟩
    | some found =>
      obtain ⟨content, left⟩ := found
      have hshort := withFluff_shortens number_shortens hstep
      rw [hstep] at hspec
      obtain ⟨token, value, hscan, hvalue⟩ := hspec
      obtain ⟨token', rest, values, hagain, hrest⟩ := again_numbers rounds left (by omega)
      rw [hscan]
      simp only [if_neg (vectorStep_consumes hscan).1, hagain, Option.bind_some]
      refine ⟨_, _, _, rfl, ?_⟩
      cases hitems : items number (some 0x29) rounds left with
      | none =>
        rw [hitems] at hrest
        exact hrest
      | some found =>
        obtain ⟨numbers, left'⟩ := found
        rw [hitems] at hrest
        exact ⟨hrest.1, .cons hvalue hrest.2⟩

theorem component_eq {value : Value} {content : Content Doc}
    (h : TextGrammar.scalar? value = some content) :
    TextGrammar.component value = component content := by
  have hzero : (Binary.zero : Binary64).convert .binary32 = .zero := by decide
  cases value with
  | null => cases h; exact hzero
  | bool b => cases h; exact hzero
  | signed n => cases h; rfl
  | float x => cases h; rfl
  | _ => cases h

theorem components_of_ofList? {components : List Binary32} {v : Vec}
    (h : Vec.ofList? components = some v) : v.components = components := by
  rw [Vec.ofList?] at h
  split at h
  · cases h
    rfl
  · cases h

/-- The vector that values stand for. -/
def vectorOf? (values : List Value) : Option (Content Doc) :=
  (Vec.ofList? (values.map TextGrammar.component)).bind fun v ↦
    if v.components.all Binary.isFinite then some (.vector v) else none

theorem vectorOf?_eq {values : List Value} {numbers : List (Content Doc)}
    (h : Stand values numbers) : vectorOf? values = vector numbers := by
  have hmap : values.map TextGrammar.component = numbers.map component := by
    induction h with
    | nil => rfl
    | cons hvalue _ ih => rw [List.map_cons, List.map_cons, component_eq hvalue, ih]
  rw [vectorOf?, vector, hmap]

/-- The scanner of a vector, before it is valued. -/
def vectorScanner : Scanner :=
  Scanner.bounded 0x28 0x29 <| Scanner.inOrder
    [fluffScanner, Scanner.optional (Scanner.repeated vectorStep)] false

theorem vectorScanner_spec (rest : List UInt8) :
    match enclosed number (some 0x29) rest with
    | some (numbers, left) => ∃ token values,
        vectorScanner (0x28 :: rest) = .ok token left values ∧ Stand values numbers
    | none => vectorScanner (0x28 :: rest) = .fail := by
  rw [vectorScanner, Scanner.bounded, Scanner.inOrder, Scanner.lookahead, Scanner.byte, enclosed]
  simp only [beq_self_eq_true, if_true]
  rw [Scanner.inOrder, Scanner.inOrder, fluffScanner]
  cases hfluff : fluff rest with
  | none => rfl
  | some rest' =>
    obtain ⟨token, left, values, hagain, hscan, -⟩ :=
      Scanner.inOrder_repeated vectorStep_consumes [] true rest'
    obtain ⟨token', left', values', hagain', hitems⟩ :=
      again_numbers (rest'.length + 1) rest' (Nat.lt_succ_self _)
    cases hagain.symm.trans hagain'
    simp only [hscan, Option.bind_some]
    cases hread : items number (some 0x29) (rest'.length + 1) rest' with
    | none =>
      rw [hread] at hitems
      cases left with
      | nil => simp [Scanner.inOrder, Scanner.lookahead, Scanner.byte, Scan.after]
      | cons c left =>
        have hc : c ≠ 0x29 := fun hc ↦ hitems (congrArg some hc)
        simp [Scanner.inOrder, Scanner.lookahead, Scanner.byte, Scan.after, hc]
    | some found =>
      obtain ⟨numbers, left'⟩ := found
      rw [hread] at hitems
      obtain ⟨rfl, hstand⟩ := hitems
      simp [Scanner.inOrder, Scanner.lookahead, Scanner.byte, Scan.after, hstand]

theorem vectorScanner_fail {b : UInt8} (hb : b ≠ 0x28) (rest : List UInt8) :
    vectorScanner (b :: rest) = .fail := by
  simp [vectorScanner, Scanner.bounded, Scanner.inOrder, Scanner.lookahead, Scanner.byte, hb]

/-- A vector. -/
def vectorValue : List UInt8 → Option (Content Doc × List UInt8)
  | [] => none
  | b :: rest =>
    if b = 0x28 then
      (enclosed number (some 0x29) rest).bind fun (numbers, left) ↦ (vector numbers).map (·, left)
    else none

/-- The values of what is scanned are the vector that the direct reader finds. -/
theorem vectorScanner_vectorOf? (bytes : List UInt8) :
    match vectorScanner bytes with
    | .ok _ rest values => vectorValue bytes = (vectorOf? values).map (·, rest)
    | .fail => vectorValue bytes = none
    | .noMatch => False := by
  cases bytes with
  | nil => rfl
  | cons b rest =>
    by_cases hb : b = 0x28
    · subst hb
      have hspec := vectorScanner_spec rest
      rw [vectorValue, if_pos rfl]
      cases hread : enclosed number (some 0x29) rest with
      | none =>
        rw [hread] at hspec
        simp only at hspec
        rw [hspec]
        rfl
      | some found =>
        obtain ⟨numbers, left⟩ := found
        rw [hread] at hspec
        obtain ⟨token, values, hscan, hstand⟩ := hspec
        rw [hscan]
        simp only [vectorOf?_eq hstand, Option.bind_some]
    · rw [vectorScanner_fail hb, vectorValue, if_neg hb]

section

variable {input : Array UInt8} {s : State input Builder} {start : Position}

theorem emitVector_of_some {content : Content Doc}
    (h : vectorOf? (s.resultsSince start) = some content) :
    TextGrammar.emitVector s start = TextGrammar.built s start (emit content) := by
  obtain ⟨v, hv, h⟩ := Option.bind_eq_some_iff.1 h
  rw [Option.ite_none_right_eq_some, components_of_ofList? hv] at h
  rw [TextGrammar.emitVector]
  simp only [hv, if_pos h.1, ← Option.some.inj h.2]
  rfl

theorem emitVector_of_none (h : vectorOf? (s.resultsSince start) = none) :
    ∃ reason, TextGrammar.emitVector s start = s.fail reason := by
  rw [TextGrammar.emitVector]
  rw [vectorOf?] at h
  cases hv : Vec.ofList? ((s.resultsSince start).map TextGrammar.component) with
  | some v =>
    rw [hv, Option.bind_some, components_of_ofList? hv] at h
    have hinfinite : ¬ ((s.resultsSince start).map TextGrammar.component).all Binary.isFinite =
        true := fun hfinite ↦ by simp [hfinite] at h
    simp only [if_neg hinfinite]
    exact ⟨_, rfl⟩
  | none =>
    dsimp only
    split
    · exact ⟨_, rfl⟩
    · exact ⟨_, rfl⟩

end

theorem vector_builds : TextGrammar.vector.Builds 13 vectorValue emit (fun _ _ ↦ True)
    fun _ ↦ True := by
  have hreads : (Rule.bounded 0x28 0x29
      (.allOf
        [TextGrammar.act Fluff.skip,
          (TextGrammar.thenFluff
            (.anyOf
              [TextGrammar.delimited Leaf.decimalAny, TextGrammar.delimited Leaf.signedAny,
                TextGrammar.malformedNumber])).repeatedOrNone])).Reads grammar true 12
      vectorScanner :=
    .bounded 0x28 0x29 <| .allOf <| .cons (skip_reads.mono (by decide)) <|
      .cons (.allOf (m := { repeatedOrNone := true }) vectorSteps_reads) .nil
  exact Rule.Builds.after vectorOf? hreads (fun _ _ _ ↦ emitVector_of_some)
    (fun _ _ ↦ emitVector_of_none) vectorScanner_vectorOf?

end Direct
end DocGrammar
