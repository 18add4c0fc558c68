import DocGrammar.Doc.Grammar
import DocGrammar.Proofs.Direct.Items

/-!
# The grammar accepts what the direct reader accepts

Values nest, so the rules for values, members and collections are treated together, by induction on
the length of what is left to read: every bracket takes a byte.  The induction carries the depth to
which evaluations are nested, which grows by no more than eight for a bracket, and so the
budget of `Doc.read` is enough.

The main result is `Doc.parse_document`: the parse of a document comes to what the direct reader
says, and never runs out of budget.
-/

set_option autoImplicit false

namespace DocGrammar
namespace Direct

open TextGrammar (TextRule grammar)

variable {input : Array UInt8}

/-! ## Headings -/

/-- The name of the next value. -/
def name (text : String) (b : Builder) : Builder := { b with pending := some text, scratch := "" }

/-- The scanner of blanks and an equals sign. -/
def equalsScanner : Scanner :=
  Scanner.inOrder
    [Scanner.optional (Scanner.lookahead (Scanner.run isBlank)),
      Scanner.lookahead (Scanner.byte (· == 0x3D))] true

/-- The bytes behind blanks and an equals sign. -/
def behindEquals (bytes : List UInt8) : Option (List UInt8) :=
  match bytes.dropWhile isBlank with
  | [] => none
  | b :: rest => if b = 0x3D then some rest else none

theorem heading_eq (bytes : List UInt8) :
    heading bytes =
      (string bytes).bind fun (name, rest) ↦ (behindEquals rest).map (name, ·) := by
  rw [heading]
  refine congrArg (Option.bind (string bytes)) (funext fun found ↦ ?_)
  obtain ⟨name, rest⟩ := found
  dsimp only
  rw [behindEquals]
  cases rest.dropWhile isBlank with
  | nil => rfl
  | cons b rest =>
    dsimp only
    split
    · rfl
    · rfl

theorem equalsScanner_skips : equalsScanner.Skips behindEquals := by
  intro bytes
  have hscan : equalsScanner bytes =
      (Scanner.inOrder [Scanner.lookahead (Scanner.byte (· == 0x3D))] true
        (bytes.dropWhile isBlank)).after (bytes.takeWhile isBlank) [] := by
    by_cases h : bytes.takeWhile isBlank = []
    · have hdrop : bytes.dropWhile isBlank = bytes := by
        have happend := List.takeWhile_append_dropWhile (p := isBlank) (l := bytes)
        rwa [h] at happend
      simp [equalsScanner, Scanner.inOrder, Scanner.optional, Scanner.lookahead, Scanner.run, h,
        hdrop]
    · simp [equalsScanner, Scanner.inOrder, Scanner.optional, Scanner.lookahead, Scanner.run, h]
  rw [hscan, behindEquals]
  cases bytes.dropWhile isBlank with
  | nil => rfl
  | cons b rest =>
    by_cases hb : b = 0x3D <;>
      simp [Scanner.inOrder, Scanner.lookahead, Scanner.byte, Scan.after, hb]

theorem equals_builds : SequenceBuilds .ok 2 [Leaf.spaceMaybe, (Rule.byte 0x3D).lookahead]
    (fun bytes ↦ (behindEquals bytes).map ((), ·)) (fun _ b ↦ b) (fun _ _ ↦ True)
    fun _ ↦ True :=
  .of_skips (.cons spaceMaybe_reads <| .cons ((Rule.Reads.byte 0x3D).mono (by decide)) .nil)
    equalsScanner_skips

/-- A string, blanks and an equals sign.  Where there is no string, nothing has been kept. -/
theorem headingParts_builds :
    (Rule.allOf [TextGrammar.string, Leaf.spaceMaybe, (Rule.byte 0x3D).lookahead]).Builds 7 heading
      keep (fun _ _ ↦ True) (string · = none) := by
  have hparts : SequenceBuilds .noMatch 6
      [TextGrammar.string, Leaf.spaceMaybe, (Rule.byte 0x3D).lookahead] _ keep (fun _ _ ↦ True) _ :=
    .cons (fun text _ ↦ text) string_builds (equals_builds.mono (by decide))
      (fun _ _ _ _ _ _ ↦ trivial) fun _ _ _ _ _ ↦ rfl
  refine (hparts.imp (fun _ bytes _ ↦ ?_) fun _ h ↦ ⟨trivial, h⟩).builds none
  rw [heading_eq]
  cases string bytes with
  | none => rfl
  | some found => exact Option.map_map _ _ _

theorem memberName_builds : TextGrammar.memberName.Builds 8 heading name
    (fun _ _ ↦ True) (string · = none) := by
  refine Rule.Builds.imp (headingParts_builds.closing fun s start ↦ rfl) (fun _ _ _ ↦ trivial)
    (fun text b _ _ ↦ ?_) fun _ h ↦ h
  rfl

/-! ## Members -/

section

variable {depth n : Nat} {read : List UInt8 → Option (Content Doc × List UInt8)}
  {clean : List UInt8 → Prop}

/-- A rule that is named by a symbol. -/
theorem symbol_builds {α : Type} (item : Symbol) {read : List UInt8 → Option (α × List UInt8)}
    {change : α → Builder → Builder} {ready : Builder → List UInt8 → Prop}
    (h : (grammar item).Builds depth read change ready clean) :
    (Rule.symbol item).Builds (depth + 1) read change ready clean :=
  .of_kind fun input budget hbudget s hs hready ↦ by
    obtain ⟨⟨outcome, s₁⟩, hreply, hbuilt⟩ := h input budget hbudget s hs hready
    refine ⟨_, hreply, ?_⟩
    generalize read s.rest = found at hbuilt ⊢
    cases hbuilt with
    | ok ht => exact .ok ht
    | fail hdropped => exact .fail hdropped.lost

theorem emit_name {text : String} {b : Builder} (h : Idle b) (content : Content Doc) :
    emit content (name text b) = add ⟨.ofString text, content⟩ b := by
  obtain ⟨current, enclosing, pending, scratch⟩ := b
  obtain ⟨rfl, rfl⟩ := h
  rfl

/-- A value that reads what a direct reader does makes a member that reads what that reader's member
does. -/
theorem member_builds (hdepth : 8 ≤ depth)
    (hvalue : (Rule.symbol .value).Builds depth read emit
      (fun b bytes ↦ Unread b ∧ bytes.length ≤ n) clean) :
    TextGrammar.member.Builds (depth + 1) (member read) add
      (fun b bytes ↦ Idle b ∧ bytes.length ≤ n) (string · = none) := by
  have htail : SequenceBuilds .ok depth [TextGrammar.act Fluff.skip, .symbol .value] _ emit
      (fun b bytes ↦ Unread b ∧ bytes.length ≤ n) _ :=
    .cons (fun _ content ↦ content)
      ((skip_builds.mono (by omega)).ofReady fun _ _ _ ↦ trivial) (.single hvalue)
      (fun _ _ _ _ h hskip ↦ ⟨h.1, Nat.le_trans (skip_length_le hskip) h.2⟩)
      fun _ _ _ _ _ ↦ rfl
  have hparts : SequenceBuilds .noMatch depth
      [TextGrammar.memberName, TextGrammar.act Fluff.skip, .symbol .value] _ add
      (fun b bytes ↦ Idle b ∧ bytes.length ≤ n) _ :=
    .cons (fun text content ↦ ⟨.ofString text, content⟩)
      ((memberName_builds.mono hdepth).ofReady fun _ _ _ ↦ trivial) htail
      (fun _ _ _ _ h hread ↦ ⟨rfl, Nat.le_trans (Nat.le_of_lt (heading_shortens hread)) h.2⟩)
      fun _ content _ _ h ↦ emit_name h.1 content
  -- a heading begins with a string, so what fails behind one need not be clean
  refine (hparts.imp (fun _ bytes _ ↦ ?_) fun bytes h ↦ ⟨h, by rw [heading, h]; rfl⟩).builds _
  rw [member]
  cases heading bytes with
  | none => rfl
  | some found =>
    obtain ⟨text, rest⟩ := found
    rw [Option.bind_some, Option.bind_some]
    dsimp only
    cases fluff rest with
    | none => rfl
    | some left =>
      rw [Option.map_some, Option.bind_some, Option.bind_some]
      exact Option.map_map _ _ _

theorem emit_eq_add {b : Builder} (h : Idle b) (content : Content Doc) :
    emit content b = add ⟨.empty, content⟩ b := by
  obtain ⟨current, enclosing, pending, scratch⟩ := b
  obtain ⟨rfl, rfl⟩ := h
  rfl

/-- A value by itself is an element of an array. -/
theorem element_builds
    (hvalue : (Rule.symbol .value).Builds depth read emit
      (fun b bytes ↦ Unread b ∧ bytes.length ≤ n) clean) :
    (Rule.symbol .value).Builds depth (element read) add
      (fun b bytes ↦ Idle b ∧ bytes.length ≤ n) clean :=
  .map (fun content ↦ (⟨.empty, content⟩ : Doc)) <|
    hvalue.imp (fun _ _ h ↦ ⟨h.1.scratch_eq, h.2⟩) (fun content _ _ h ↦ emit_eq_add h.1 content)
      fun _ h ↦ h

end

/-! ## Up to a closing byte -/

/-- An action that takes a closing byte, or is there at the end of the input if there is none. -/
def Ends (act : DirectAction Builder) (closer : Option UInt8) : Prop :=
  ∀ {input : Array UInt8} (s : State input Builder) (start : Position),
    if s.rest.head? = closer then
      ∃ token s', act s start = (.ok, s') ∧ s.Took token (s.rest.drop 1) [] s.user s'
    else ∃ reason, act s start = s.fail reason

theorem collectionEnd_ends (form : Form) :
    Ends (TextGrammar.collectionEnd form) (some (TextGrammar.closer form)) := by
  intro input s start
  simp only [TextGrammar.collectionEnd, State.peek_eq]
  cases hrest : s.rest with
  | nil => exact ⟨_, rfl⟩
  | cons b rest =>
    simp only [List.head?_cons, Option.some.injEq, List.drop_one, List.tail_cons]
    by_cases hb : b = TextGrammar.closer form
    · rw [if_pos hb, if_pos hb]
      exact ⟨_, _, rfl, Evaluate.bracket_took hrest⟩
    · rw [if_neg hb, if_neg hb]
      exact ⟨_, rfl⟩

theorem documentEnd_ends : Ends TextGrammar.documentEnd none := by
  intro input s start
  simp only [TextGrammar.documentEnd, State.peek_eq]
  cases hrest : s.rest with
  | nil =>
    have ht := State.Took.refl s
    rw [hrest] at ht
    exact ⟨[], s, rfl, ht⟩
  | cons b rest =>
    rw [List.head?_cons, if_neg (Option.some_ne_none b)]
    dsimp only
    split_ifs
    · exact ⟨_, rfl⟩
    · exact ⟨_, rfl⟩
    · exact ⟨_, rfl⟩
    · exact ⟨_, rfl⟩

theorem Ends.builds {act : DirectAction Builder} {closer : Option UInt8} (h : Ends act closer) :
    (TextGrammar.act act).Builds 1
      (fun bytes ↦ if bytes.head? = closer then some ((), bytes.drop 1) else none) (fun _ b ↦ b)
      (fun _ _ ↦ True) fun _ ↦ True := by
  refine .of_kind fun input budget _ s _ _ ↦ ?_
  have hact := h s s.position
  show ∃ reply, some (act s s.position) = some reply ∧ _
  by_cases hhead : s.rest.head? = closer
  · simp only [if_pos hhead] at hact ⊢
    obtain ⟨token, s', hact, ht⟩ := hact
    rw [hact]
    exact ⟨_, rfl, .ok ht⟩
  · simp only [if_neg hhead] at hact ⊢
    obtain ⟨reason, hact⟩ := hact
    rw [hact]
    exact ⟨_, rfl, .fail (s.failAt_same _ _).beyond.lost⟩

section

variable {item : Symbol} {depth n : Nat} {read : List UInt8 → Option (Doc × List UInt8)}
  {act : DirectAction Builder} {closer : Option UInt8}

/-- Items and a closing byte.  A sequence goes on behind the items whether there were any or not;
and what has not been read to the closing byte is not clean. -/
theorem items_builds (hpos : 1 ≤ depth) (hread : Shortens read)
    (hcloser : ∀ bytes, bytes.head? = closer → read bytes = none)
    (hitem : (Rule.symbol item).Builds depth read add (fun b bytes ↦ Idle b ∧ bytes.length ≤ n)
      (·.head? = closer))
    (hact : Ends act closer) :
    SequenceBuilds .ok (depth + 1)
      [(TextGrammar.thenFluff (.symbol item)).repeatedOrNone, TextGrammar.act act]
      (fun bytes ↦ items read closer (bytes.length + 1) bytes) addAll
      (fun b bytes ↦ Idle b ∧ bytes.length ≤ n) fun _ ↦ False := by
  intro input budget hbudget s hs ⟨hidle, hn⟩
  obtain ⟨outcome, s₁, hitems, houtcome, hgathered⟩ := items_gathered hread hcloser hitem input
    hbudget (by omega) s hs hidle hn
  have hlast : Evaluate.inOrder (Rule.evaluate grammar budget)
      [(TextGrammar.thenFluff (.symbol item)).repeatedOrNone, TextGrammar.act act] .ok s =
        Evaluate.inOrder (Rule.evaluate grammar budget) [TextGrammar.act act] .ok s₁ := by
    rw [Evaluate.inOrder, hitems]
    cases outcome with
    | ok => rfl
    | noMatch => rfl
    | fail => exact absurd rfl houtcome
  rw [hlast]
  dsimp only
  cases hfound : items read closer (s.rest.length + 1) s.rest with
  | none =>
    rw [hfound] at hgathered
    obtain ⟨hextends, hhead⟩ := hgathered
    obtain ⟨reply, hreply, hbuilt⟩ := SequenceBuilds.single hact.builds input budget (by omega) s₁
      (hextends.resultsSilenced_eq.trans hs) trivial
    simp only [if_neg hhead] at hbuilt
    cases hbuilt with
    | fail hlost => exact ⟨_, hreply, .fail ⟨hextends.trans hlost.toExtends, False.elim⟩⟩
  | some found =>
    obtain ⟨docs, left⟩ := found
    rw [hfound] at hgathered
    obtain ⟨token, rest, ht, hhead, rfl⟩ := hgathered
    obtain ⟨reply, hreply, hbuilt⟩ := SequenceBuilds.single hact.builds input budget (by omega) s₁
      (ht.resultsSilenced_eq.trans hs) trivial
    simp only [ht.rest_eq, if_pos hhead] at hbuilt
    cases hbuilt with
    | ok ht' =>
      rw [ht.user_eq] at ht'
      exact ⟨_, hreply, .ok (ht.trans ht')⟩

/-- Fluff, items and a closing byte. -/
theorem enclosed_builds {outcome : Outcome} (hpos : 1 ≤ depth) (hread : Shortens read)
    (hcloser : ∀ bytes, bytes.head? = closer → read bytes = none)
    (hitem : (Rule.symbol item).Builds depth read add (fun b bytes ↦ Idle b ∧ bytes.length ≤ n)
      (·.head? = closer))
    (hact : Ends act closer) :
    SequenceBuilds outcome (depth + 1)
      [TextGrammar.act Fluff.skip, (TextGrammar.thenFluff (.symbol item)).repeatedOrNone,
        TextGrammar.act act]
      (enclosed read closer) addAll (fun b bytes ↦ Idle b ∧ bytes.length ≤ n) fun _ ↦ False := by
  have hparts : SequenceBuilds outcome (depth + 1) (TextGrammar.act Fluff.skip :: _) _ addAll
      (fun b bytes ↦ Idle b ∧ bytes.length ≤ n) _ :=
    .cons (fun _ docs ↦ docs)
      ((skip_builds.mono (by omega)).ofReady fun _ _ _ ↦ trivial)
      (items_builds hpos hread hcloser hitem hact)
      (fun _ _ _ _ h hskip ↦ ⟨h.1, Nat.le_trans (skip_length_le hskip) h.2⟩)
      fun _ _ _ _ _ ↦ rfl
  refine hparts.imp (fun _ bytes _ ↦ ?_) fun _ ↦ False.elim
  rw [enclosed]
  cases fluff bytes with
  | none => rfl
  | some rest => exact congrFun Option.map_id _

/-! ## Collections -/

/-- The opening bracket of a collection. -/
theorem opener_builds (form : Form) :
    (Rule.byte (TextGrammar.opener form)).lookahead.Builds 1
      (fun bytes ↦ (if bytes.head? = some (TextGrammar.opener form) then some (bytes.drop 1)
        else none).map ((), ·)) (fun _ b ↦ b) (fun _ _ ↦ True) fun _ ↦ True := by
  have hopener : (Rule.byte (TextGrammar.opener form)).lookahead.Reads grammar true 1
      (Scanner.lookahead (Scanner.byte (· == TextGrammar.opener form))) :=
    .byte _
  refine .of_skips hopener ?_
  rintro (_ | ⟨b, rest⟩)
  · rfl
  · by_cases hb : b = TextGrammar.opener form <;> simp [Scanner.lookahead, Scanner.byte, hb]

/-- The body of a collection reads what stands behind the opening bracket, and adds it. -/
theorem body_builds (form : Form) (hpos : 1 ≤ depth) (hread : Shortens read)
    (hcloser : ∀ bytes, bytes.head? = some (TextGrammar.closer form) → read bytes = none)
    (hitem : (Rule.symbol item).Builds depth read add (fun b bytes ↦ Idle b ∧ bytes.length ≤ n)
      (·.head? = some (TextGrammar.closer form))) :
    (TextGrammar.body form item).Builds (depth + 2)
      (fun bytes ↦ enclosed read (some (TextGrammar.closer form)) (bytes.drop 1)) addAll
      (fun b bytes ↦
        Idle b ∧ bytes.length ≤ n + 1 ∧ bytes.head? = some (TextGrammar.opener form))
      fun _ ↦ False := by
  have hparts : SequenceBuilds .noMatch (depth + 1)
      ((Rule.byte (TextGrammar.opener form)).lookahead :: _) _ addAll (fun b bytes ↦
        Idle b ∧ bytes.length ≤ n + 1 ∧ bytes.head? = some (TextGrammar.opener form)) _ :=
    .cons (fun _ docs ↦ docs)
      (((opener_builds form).mono (by omega)).ofReady fun _ _ _ ↦ trivial)
      (enclosed_builds hpos hread hcloser hitem (collectionEnd_ends form))
      (fun _ _ bytes _ h hskip ↦ by
        rw [if_pos h.2.2] at hskip
        cases hskip
        exact ⟨h.1, by rw [List.length_drop]; exact Nat.sub_le_of_le_add h.2.1⟩)
      fun _ _ _ _ _ ↦ rfl
  refine (hparts.imp (fun _ bytes h ↦ ?_) fun _ ↦ False.elim).builds _
  rw [if_pos h.2.2]
  exact congrFun Option.map_id _

/-- A collection, as a value. -/
def collection (form : Form) (read : List UInt8 → Option (Doc × List UInt8))
    (bytes : List UInt8) : Option (Content Doc × List UInt8) :=
  if bytes.head? = some (TextGrammar.opener form) then
    (enclosed read (some (TextGrammar.closer form)) (bytes.drop 1)).map fun (docs, left) ↦
      (.collection form (gather docs), left)
  else none

theorem openBranch_idle {b : Builder} (h : Unread b) (form : Form) : Idle (b.openBranch form) :=
  ⟨rfl, h⟩

/-- Closing the collection that was opened is finishing a value. -/
theorem closeBranch_addAll (docs : List Doc) (b : Builder) (form : Form) :
    (addAll docs (b.openBranch form)).closeBranch = emit (.collection form (gather docs)) b := by
  rw [addAll_current]
  rfl

/-- Where there is no opening bracket, nothing happens; where there is one, and the body fails, the
builder has lost the pending name. -/
theorem scope_builds (form : Form)
    (hbody : (grammar (TextGrammar.bodyOf form)).Builds depth
      (fun bytes ↦ enclosed read (some (TextGrammar.closer form)) (bytes.drop 1)) addAll
      (fun b bytes ↦
        Idle b ∧ bytes.length ≤ n ∧ bytes.head? = some (TextGrammar.opener form))
      fun _ ↦ False) :
    (Rule.leaf (TextGrammar.scope form)).Builds (depth + 1) (collection form read) emit
      (fun b bytes ↦
        bytes.head? = some (TextGrammar.opener form) → Unread b ∧ bytes.length ≤ n)
      (·.head? ≠ some (TextGrammar.opener form)) := by
  refine .of_kind fun input budget hbudget s hs hready ↦ ?_
  simp only [Evaluate.kind, TextGrammar.scope, State.peek_eq, collection]
  by_cases hhead : s.rest.head? = some (TextGrammar.opener form)
  · obtain ⟨hunread, hn⟩ := hready hhead
    obtain ⟨⟨outcome, s₁⟩, hreply, hbuilt⟩ := hbody input budget hbudget
      { s with user := s.user.openBranch form } hs ⟨openBranch_idle hunread form, hn, hhead⟩
    simp only [if_pos hhead, Program.run, hreply]
    refine ⟨_, rfl, ?_⟩
    change Built { s with user := s.user.openBranch form } addAll _
      (enclosed read _ (s.rest.drop 1)) _ at hbuilt
    generalize enclosed read _ (s.rest.drop 1) = found at hbuilt ⊢
    cases hbuilt with
    | @ok docs token rest s' ht =>
      refine .ok ⟨ht.input_eq, ht.cursor_eq, ht.results_eq, ht.errorsSilenced_eq,
        ht.resultsSilenced_eq, ?_⟩
      rw [if_pos rfl]
      show s₁.user.closeBranch = _
      rw [ht.user_eq]
      exact closeBranch_addAll docs s.user form
    | fail hdropped =>
      have hextends := hdropped.toUndone.extends
      exact .fail ⟨⟨hextends.cursor_le, hextends.isPrefix, hextends.errorsSilenced_eq,
        hextends.resultsSilenced_eq⟩, fun hne ↦ absurd hhead hne⟩
  · simp only [if_neg hhead, Program.run]
    exact ⟨_, rfl, .fail (s.failAt_same _ _).beyond.lost⟩

end

/-- A collection does not begin with another byte than its opening bracket. -/
theorem scope_refuses {α : Type} (form : Form) {change : α → Builder → Builder} :
    (Rule.leaf (TextGrammar.scope form)).Builds 1 (fun _ ↦ none) change
      (fun _ bytes ↦ bytes.head? ≠ some (TextGrammar.opener form)) fun _ ↦ True := by
  refine .of_kind fun input budget _ s _ hne ↦ ?_
  simp only [Evaluate.kind, TextGrammar.scope, State.peek_eq, if_neg hne, Program.run]
  exact ⟨_, rfl, .fail (s.failAt_same _ _).beyond.lost⟩

/-! ## Values -/

/-- What the alternatives of a value read, in their order. -/
def alternatives (read : List UInt8 → Option (Content Doc × List UInt8)) (bytes : List UInt8) :
    Option (Content Doc × List UInt8) :=
  ((keyword bytes).or (number bytes)).or <|
    (stringValue bytes).or <| (vectorValue bytes).or <|
      (collection .array (element read) bytes).or (collection .node (member read) bytes)

theorem startsNumber_false {b : UInt8} (h : Byte.isIdentifierStart b = true) :
    startsNumber b = false :=
  Byte.forall_of_lt (P := fun b ↦ Byte.isIdentifierStart b = true → startsNumber b = false)
    (by decide +kernel) b h

theorem stringValue_eq_none {b : UInt8} (hquote : b ≠ 0x22) (hfence : b ≠ 0x60)
    (hb : Byte.isIdentifierStart b = false) (rest : List UInt8) :
    stringValue (b :: rest) = none := by
  rw [stringValue, string_eq_none hquote hfence hb]
  rfl

theorem vectorValue_eq_none {b : UInt8} (hb : b ≠ 0x28) (rest : List UInt8) :
    vectorValue (b :: rest) = none :=
  if_neg hb

theorem collection_eq_none (form : Form) {b : UInt8} (hb : b ≠ TextGrammar.opener form)
    (read : List UInt8 → Option (Doc × List UInt8)) (rest : List UInt8) :
    collection form read (b :: rest) = none :=
  if_neg fun h ↦ hb (Option.some.inj h)

/-- The first byte tells the alternatives apart. -/
theorem value_eq (depth : Nat) (bytes : List UInt8) :
    value (depth + 1) bytes = alternatives (value depth) bytes := by
  cases bytes with
  | nil => rfl
  | cons b rest =>
    rw [value, alternatives]
    by_cases harray : b = 0x5B
    · subst harray
      rw [if_pos rfl, keyword_eq_none rfl, number_eq_none rfl,
        stringValue_eq_none (by decide) (by decide) rfl, vectorValue_eq_none (by decide),
        collection_eq_none .node (by decide)]
      simp only [Option.none_or, Option.or_none]
      rfl
    rw [if_neg harray, collection_eq_none .array harray, Option.none_or]
    by_cases hnode : b = 0x7B
    · subst hnode
      rw [if_pos rfl, keyword_eq_none rfl, number_eq_none rfl,
        stringValue_eq_none (by decide) (by decide) rfl, vectorValue_eq_none (by decide)]
      rfl
    rw [if_neg hnode, collection_eq_none .node hnode, Option.or_none]
    by_cases hvector : b = 0x28
    · subst hvector
      rw [if_pos rfl, keyword_eq_none rfl, number_eq_none rfl,
        stringValue_eq_none (by decide) (by decide) rfl]
      rfl
    rw [if_neg hvector, vectorValue_eq_none hvector, Option.or_none]
    by_cases hstart : Byte.isIdentifierStart b = true
    · have hnumber := startsNumber_false hstart
      have hquotes : ¬ (b = 0x22 ∨ b = 0x60) := by
        rintro (rfl | rfl) <;> exact absurd hstart (by decide)
      rw [hnumber, if_neg Bool.false_ne_true, if_neg hquotes, if_pos hstart,
        number_eq_none hnumber, Option.or_none]
      rfl
    rw [keyword_eq_none (Bool.eq_false_iff.2 hstart), Option.none_or]
    by_cases hquotes : b = 0x22 ∨ b = 0x60
    · have hnumber : startsNumber b = false := by
        rcases hquotes with rfl | rfl <;> rfl
      rw [hnumber, if_neg Bool.false_ne_true, if_pos hquotes, number_eq_none hnumber,
        Option.none_or]
      rfl
    obtain ⟨hquote, hfence⟩ := not_or.1 hquotes
    rw [if_neg hquotes, if_neg hstart,
      stringValue_eq_none hquote hfence (Bool.eq_false_iff.2 hstart), Option.or_none]
    split
    · rfl
    · next hnumber =>
      rw [number_eq_none (Bool.eq_false_iff.2 hnumber)]
      rfl

/-- What begins like a number is a number. -/
theorem value_number {b : UInt8} (hb : startsNumber b = true) (n : Nat) (rest : List UInt8) :
    value (n + 1) (b :: rest) = number (b :: rest) := by
  have hne {c : UInt8} (hc : startsNumber c = false) : b ≠ c := by
    rintro rfl
    exact Bool.false_ne_true (hc.symm.trans hb)
  rw [value, if_neg (hne rfl), if_neg (hne rfl), if_neg (hne rfl), if_pos hb]

/-- The reader of an item of a collection. -/
def itemOf (form : Form) (read : List UInt8 → Option (Content Doc × List UInt8)) :
    List UInt8 → Option (Doc × List UInt8) :=
  match form with
  | .array => element read
  | .node => Direct.member read

theorem itemOf_shortens (form : Form) {read : List UInt8 → Option (Content Doc × List UInt8)}
    (h : Shortens read) : Shortens (itemOf form read) := by
  cases form with
  | array => exact element_shortens h
  | node => exact member_shortens h

/-- A collection is what stands between its brackets. -/
theorem value_collection (form : Form) (n : Nat) (rest : List UInt8) :
    value (n + 1) (TextGrammar.opener form :: rest) =
      (enclosed (itemOf form (value n)) (some (TextGrammar.closer form)) rest).map
        fun (docs, left) ↦ (.collection form (gather docs), left) := by
  cases form with
  | array => rw [value]; rfl
  | node => rw [value]; rfl

section

variable {depth n : Nat} {read : List UInt8 → Option (Content Doc × List UInt8)}

theorem value_builds_of (hdepth : 13 ≤ depth)
    (harray : TextGrammar.arrayBody.Builds depth
      (fun bytes ↦ enclosed (element read) (some 0x5D) (bytes.drop 1)) addAll
      (fun b bytes ↦ Idle b ∧ bytes.length ≤ n ∧ bytes.head? = some 0x5B) fun _ ↦ False)
    (hnode : TextGrammar.nodeBody.Builds depth
      (fun bytes ↦ enclosed (member read) (some 0x7D) (bytes.drop 1)) addAll
      (fun b bytes ↦ Idle b ∧ bytes.length ≤ n ∧ bytes.head? = some 0x7B) fun _ ↦ False) :
    TextGrammar.value.Builds (depth + 2) (alternatives read) emit
      (fun b bytes ↦ Unread b ∧ bytes.length ≤ n)
      fun bytes ↦ bytes.head? ≠ some 0x5B ∧ bytes.head? ≠ some 0x7B := by
  have hscopes : ChoiceBuilds (depth + 1)
      [.leaf (TextGrammar.scope .array), .leaf (TextGrammar.scope .node)]
      (fun bytes ↦ (collection .array (element read) bytes).or
        (collection .node (member read) bytes)) emit
      (fun b bytes ↦ Unread b ∧ bytes.length ≤ n)
      fun bytes ↦ bytes.head? ≠ some 0x5B ∧ bytes.head? ≠ some 0x7B := by
    have hlast := ChoiceBuilds.cons_of_unclean (scope_builds .node hnode)
      .nil (fun _ _ _ ↦ trivial) fun _ _ _ ↦ ⟨trivial, rfl⟩
    simp only [Option.or_none, and_true] at hlast
    refine .cons_of_unclean ((scope_builds .array harray).ofReady fun _ _ h _ ↦ h) hlast
      (fun _ _ h _ ↦ h) fun b bytes hopened ↦ ?_
    -- behind an opening bracket of an array there is none of a node
    have hother : bytes.head? ≠ some 0x7B := by
      rw [not_not.1 hopened]
      decide
    exact ⟨fun h ↦ absurd h hother, if_neg hother⟩
  exact (ChoiceBuilds.cons ((scalar_builds.mono (by omega)).ofReady fun _ _ _ ↦ trivial) <|
    .cons (.of_reads_fail (malformedNumber_reads.mono (by omega))) <|
    .cons ((emitString_builds.mono (by omega)).ofReady fun _ _ h ↦ h.1) <|
    .cons ((vector_builds.mono (by omega)).ofReady fun _ _ _ ↦ trivial) hscopes).builds _

end

theorem value_eq_none (depth : Nat) {bytes : List UInt8} (h : bytes.head? = some 0x5D) :
    value depth bytes = none := by
  obtain ⟨rest, rfl⟩ := List.head?_eq_some_iff.1 h
  cases depth with
  | zero => rfl
  | succ depth => rfl

theorem element_eq_none (depth : Nat) {bytes : List UInt8} (h : bytes.head? = some 0x5D) :
    element (value depth) bytes = none := by
  rw [element, value_eq_none depth h]
  rfl

/-- No string begins with the closing bracket of a node, or at the end of the input. -/
theorem string_eq_none_of_closer {bytes : List UInt8}
    (h : bytes.head? = some 0x7D ∨ bytes.head? = none) : string bytes = none := by
  rcases h with h | h
  · obtain ⟨rest, rfl⟩ := List.head?_eq_some_iff.1 h
    exact string_eq_none (by decide) (by decide) rfl rest
  · rw [List.head?_eq_none_iff.1 h]
    rfl

theorem member_eq_none (read : List UInt8 → Option (Content Doc × List UInt8))
    {bytes : List UInt8} (h : bytes.head? = some 0x7D ∨ bytes.head? = none) :
    member read bytes = none := by
  rw [member, heading, string_eq_none_of_closer h]
  rfl

/-- **Values.**  The rule for a value reads what the direct reader reads, and finishes it. -/
theorem value_builds : ∀ n : Nat, TextGrammar.value.Builds (7 * n + 15) (value (n + 1)) emit
    (fun b bytes ↦ Unread b ∧ bytes.length ≤ n)
    fun bytes ↦ bytes.head? ≠ some 0x5B ∧ bytes.head? ≠ some 0x7B
  | 0 => by
    -- there is nothing left to read, and so no bracket
    have hunready {c : UInt8} (b : Builder) (bytes : List UInt8) :
        ¬ (Idle b ∧ bytes.length ≤ 0 ∧ bytes.head? = some c) := by
      rintro ⟨-, hlength, hhead⟩
      rw [List.length_eq_zero_iff.1 (Nat.le_zero.1 hlength)] at hhead
      cases hhead
    rw [funext (value_eq 0)]
    exact value_builds_of (Nat.le_refl _) (.of_unready hunready) (.of_unready hunready)
  | n + 1 => by
    have hvalue := symbol_builds .value (value_builds n)
    have hmember := symbol_builds .member (member_builds (by omega) hvalue)
    have harray := body_builds .array (by omega) (element_shortens (value_shortens _))
      (fun _ h ↦ element_eq_none _ h)
      ((element_builds hvalue).imp (fun _ _ h ↦ h) (fun _ _ _ _ ↦ rfl) fun bytes h ↦ by
        rw [h]
        decide)
    have hnode := body_builds .node (by omega) (member_shortens (value_shortens _))
      (fun _ h ↦ member_eq_none _ (.inl h))
      (hmember.imp (fun _ _ h ↦ h) (fun _ _ _ _ ↦ rfl) fun _ h ↦
        string_eq_none_of_closer (.inl h))
    rw [funext (value_eq (n + 1))]
    exact (value_builds_of (by omega) (harray.mono (by omega)) hnode).mono (by omega)

/-- The symbol of an item of a collection. -/
def itemSymbol : Form → Symbol
  | .array => .value
  | .node => .member

/-- The items of a collection are added to it. -/
theorem item_builds (form : Form) (n : Nat) :
    (Rule.symbol (itemSymbol form)).Builds (7 * n + 18) (itemOf form (value (n + 1))) add
      (fun b bytes ↦ Idle b ∧ bytes.length ≤ n) fun _ ↦ False := by
  have hvalue := symbol_builds .value (value_builds n)
  cases form with
  | array =>
    exact ((element_builds hvalue).mono (by omega)).imp (fun _ _ h ↦ h) (fun _ _ _ _ ↦ rfl)
      fun _ ↦ False.elim
  | node =>
    exact (symbol_builds .member (member_builds (by omega) hvalue)).imp (fun _ _ h ↦ h)
      (fun _ _ _ _ ↦ rfl) fun _ ↦ False.elim

/-! ## The document -/

/-- **Documents.**  The rule for a document reads what the direct reader reads, and the members are
added to the root. -/
theorem document_builds (n : Nat) : TextGrammar.document.Builds (7 * n + 20)
    (enclosed (member (value (n + 1))) none) addAll (fun b bytes ↦ Idle b ∧ bytes.length ≤ n)
    fun _ ↦ False := by
  have hmember := symbol_builds .member
    (member_builds (by omega) (symbol_builds .value (value_builds n)))
  exact ((enclosed_builds (by omega) (member_shortens (value_shortens _))
    (fun _ h ↦ member_eq_none _ (.inr h))
    (hmember.imp (fun _ _ h ↦ h) (fun _ _ _ _ ↦ rfl) fun _ h ↦ string_eq_none_of_closer (.inr h))
    documentEnd_ends).builds _).mono (by omega)

/-- Items up to the end of the input leave nothing. -/
theorem items_rest {read : List UInt8 → Option (Doc × List UInt8)} :
    ∀ {rounds : Nat} {bytes rest : List UInt8} {docs : List Doc},
      items read none rounds bytes = some (docs, rest) → rest = []
  | 0, _, _, _, h => by cases h
  | rounds + 1, bytes, rest, docs, h => by
    rw [items] at h
    split at h
    · next hhead =>
      rw [List.head?_eq_none_iff.1 hhead] at h
      cases h
      rfl
    · obtain ⟨⟨d, behind⟩, -, h⟩ := Option.bind_eq_some_iff.1 h
      obtain ⟨⟨docs', left⟩, hitems, heq⟩ := Option.map_eq_some_iff.1 h
      cases heq
      exact items_rest hitems

end Direct

namespace Doc

open Direct

theorem setTag_tag (d : Doc) (t : Tag) (ht : (Content.ofTag t : Content Doc).tag = t) :
    (d.setTag t).tag = t := by
  rw [setTag]
  split
  · next h => exact h
  · exact ht

/-- Nothing is left of a root but its name. -/
theorem emptied_eq (root : Doc) : root.emptied = ⟨root.name, .collection .node {}⟩ := by
  rw [emptied, clear, setTag_tag root .node rfl, setTag]
  split
  · rfl
  · rfl

theorem initialState_user (root : Doc) (input : Array UInt8) :
    (initialState root input).user = { current := { name := root.name, form := .node } } := by
  rw [initialState, emptied_eq]
  rfl

/-- **Reading a document.**  The budget is enough; what the direct reader reads becomes the root,
and what it does not read is an error. -/
theorem parse_document (root : Doc) (input : Array UInt8) :
    ∃ answer, (initialState root input).parse TextGrammar.grammar (readBudget input.size)
        TextGrammar.document = some answer ∧
      match document input.toList with
      | some members => answer.1 = .ok input.size ∧
        answer.2.user.finish = ⟨root.name, .collection .node (gather members)⟩
      | none => ∃ error, answer.1 = .error error := by
  have hlength : input.toList.length = input.size := Array.length_toList
  have huser := initialState_user root input
  have hrest : (initialState root input).rest = input.toList := by
    rw [State.rest_eq]
    rfl
  obtain ⟨⟨outcome, s'⟩, hreply, hbuilt⟩ := document_builds input.size input
    (readBudget input.size) (by rw [readBudget]; omega)
    (initialState root input).clearResults.clearErrors rfl ⟨⟨rfl, rfl⟩, by
      show (initialState root input).rest.length ≤ _
      rw [hrest, hlength]⟩
  rw [State.parse, State.drive, hreply]
  refine ⟨_, rfl, ?_⟩
  change Built _ addAll _ (enclosed _ _ (initialState root input).rest) _ at hbuilt
  rw [hrest] at hbuilt
  rw [document, hlength]
  cases hread : enclosed (Direct.member (value (input.size + 1))) none input.toList with
  | none =>
    rw [hread] at hbuilt
    cases hbuilt with
    | fail hdropped => exact ⟨_, rfl⟩
  | some found =>
    obtain ⟨members, rest⟩ := found
    obtain ⟨left, -, hitems⟩ := Option.bind_eq_some_iff.1 hread
    cases items_rest hitems
    rw [hread] at hbuilt
    cases hbuilt with
    | @ok members token rest s' ht =>
      have htoken : input.toList = token := by
        rw [← hrest]
        exact ht.input_eq.trans (List.append_nil token)
      have hcursor : s'.cursor = input.size := by
        rw [ht.cursor_eq, ← htoken, hlength]
        exact Nat.zero_add _
      refine ⟨congrArg Except.ok hcursor, ?_⟩
      show s'.user.finish = _
      rw [ht.user_eq]
      show (addAll members (initialState root input).user).finish = _
      rw [huser, addAll_current]
      rfl

end Doc
end DocGrammar
