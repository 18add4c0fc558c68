import DocGrammar.Proofs.Diagnostics.Fatal
import DocGrammar.Proofs.Direct.Places

/-!
# What is around a fatal value

If a value is fatal at a place of a document, then the document is not read, and the answer is that
failure (`Doc.read_of_fatal`).  The induction follows the place outwards: a member is fatal where
its value is, a collection where one of its items is, and a value where it is a collection that is
(`Direct.Place.fatal`).  The same goes for vectors and their components (`vector_fatal`).

What has been read before the place is tidy, provided that no word goes on where the failure lies
(`Stops`): there is a byte that is none of a word, or the input ends.
-/

set_option autoImplicit false

namespace DocGrammar

variable {N U : Type} {input : Array UInt8}

namespace TextGrammar

open Direct (closesNothing isNumberLike itemSymbol Idle Unread)

/-! ## The end of the input -/

/-- No rule gets behind the end of the input. -/
theorem tethered_descends {inert : String → Bool} : Descends inert
    (State.Tethered input.size : State input U → State input U → Prop)
    (State.Tethered input.size) where
  outer := tethered_steady fun b hb ↦ by simp at hb
  inner := tethered_steady fun b hb ↦ by simp at hb
  behind h _ h' := h.trans h'
  enclosed _ _ s' h _ _ := (State.noted_tethered _ _).trans (h.trans (State.noted_tethered s' _))

theorem finite_wordlike {r : TextRule} (hactions : r.Every (PlainAction fun _ ↦ true))
    (hr : r.fitsWithin grammar isInert (fun _ ↦ true) wordHeight = true) (budget : Nat) :
    Wordlike input.size (r.evaluate grammar budget : Step input Builder) :=
  Rule.evaluate_wordlike (fun b hb ↦ by simp at hb) hactions hr budget

theorem sure_wordlike {r : TextRule} {enough : Nat} (h : Sure (State.Tethered input.size) input.size
      (r.evaluate grammar enough : Step input Builder)) (budget : Nat) :
    Wordlike input.size (r.evaluate grammar budget : Step input Builder) := by
  intro s outcome s' hreply
  obtain ⟨o, s₁, hsure, htethered⟩ := h s (Nat.sub_le _ _)
  cases Rule.evaluate_unique hreply hsure
  exact ⟨htethered, (Rule.evaluate_returns hreply).cursor_eq⟩

theorem value_wordlike (budget : Nat) :
    Wordlike input.size (value.evaluate grammar budget : Step input Builder) :=
  sure_wordlike (value_sure tethered_descends input.size (Nat.le_refl _)) budget

theorem member_descends : Sure (State.Tethered input.size) input.size
    (member.evaluate grammar (7 * input.size + wordHeight + 5 + 2) : Step input Builder) :=
  member_sure tethered_descends (by omega) fun m hm ↦ value_sure tethered_descends m (by omega)

theorem members_wordlike (budget : Nat) : Wordlike input.size
    ((thenFluff (.symbol .member)).repeatedOrNone.evaluate grammar budget : Step input Builder) :=
  sure_wordlike (items_sure tethered_descends (by omega) member_descends) budget

/-! ## Where no word goes on -/

/-- No word goes on at the offset: there is another byte, or the input ends. -/
def Stops (input : Array UInt8) (bound : Nat) : Prop := Halts input bound ∨ bound = input.size

namespace Stops

variable {bound : Nat} (h : Stops input bound)

include h

theorem wordlike {r : TextRule} (hactions : r.Every (PlainAction isNumberLike))
    (hr : r.fitsWithin grammar isInert isNumberLike wordHeight = true) (budget : Nat) :
    Wordlike bound (r.evaluate grammar budget : Step input Builder) := by
  rcases h with h | rfl
  · exact word_wordlike h hactions hr budget
  · exact Rule.evaluate_wordlike (fun b hb ↦ by simp at hb) hactions hr budget

theorem memberName_tidy (budget : Nat) :
    Tidy bound anything (memberName.evaluate grammar budget : Step input Builder) := by
  rcases h with h | rfl
  · exact TextGrammar.memberName_tidy h budget
  · exact (finite_wordlike actions_plain.memberName (words_fit _ (by simp [words])) budget).tidy

theorem value_tidy (budget : Nat) :
    Tidy bound anything (value.evaluate grammar budget : Step input Builder) := by
  rcases h with h | rfl
  · exact TextGrammar.value_tidy h budget
  · exact (value_wordlike budget).tidy

theorem member_tidy (budget : Nat) :
    Tidy bound anything (member.evaluate grammar budget : Step input Builder) := by
  rcases h with h | rfl
  · exact TextGrammar.member_tidy h fun less _ ↦ TextGrammar.value_tidy h less
  · exact (sure_wordlike member_descends budget).tidy

end Stops

/-! ## Items -/

theorem grammar_bodyOf (form : Form) : grammar (bodyOf form) = body form (itemSymbol form) := by
  cases form with
  | array => rfl
  | node => rfl

/-- The rule for the items of a collection with fluff behind each. -/
abbrev itemsOf (form : Form) : TextRule :=
  (thenFluff (.symbol (itemSymbol form))).repeatedOrNone

variable {f : Failure} {bound : Nat} {bytes rest : List UInt8}

theorem Stops.item_tidy (h : Stops input bound) (form : Form) (budget : Nat) : Tidy bound anything
    ((Rule.symbol (itemSymbol form)).evaluate grammar budget : Step input Builder) := by
  cases form with
  | array => exact symbol_tidy .value fun less _ ↦ h.value_tidy less
  | node => exact symbol_tidy .member fun less _ ↦ h.member_tidy less

/-- Where an item can be read directly, the rule matches. -/
theorem Stops.item_passes (h : Stops input bound) {form : Form} {depth : Nat} {doc : Doc}
    (hitem : Direct.itemOf form (Direct.value depth) bytes = some (doc, rest))
    (hrest : input.size ≤ bound + rest.length) :
    Passes input bound Idle Idle (.symbol (itemSymbol form)) bytes rest := by
  -- the item must neither be too deep nor too long for the rule
  have hread := Direct.itemOf_mono form
    (Nat.le_succ_of_le (Nat.le_max_left depth bytes.length)) hitem
  exact .of_builds (Direct.item_builds form (max depth bytes.length)) (h.item_tidy form) hread hrest
    (fun _ hb ↦ ⟨hb, Nat.le_max_right _ _⟩) fun _ hb ↦ hb.add doc

/-! ## Values -/

theorem bracket_refusal : ∀ b ∈ [(0x28 : UInt8), 0x5B, 0x7B],
    ∀ r ∈ [scalar, malformedNumber, after string emitString],
      r.refusal grammar b wordHeight = some .fail := by
  decide +kernel

theorem bracket_starts : ∀ b ∈ [(0x28 : UInt8), 0x5B, 0x7B], Byte.isIdentifierStart b = false ∧
    Direct.startsNumber b = false ∧ b ≠ 0x22 ∧ b ≠ 0x60 := by
  decide +kernel

/-- The rules for words decline an opening bracket. -/
theorem words_decline {b : UInt8} (hb : b ∈ [(0x28 : UInt8), 0x5B, 0x7B])
    (hbytes : input.size ≤ bound + (b :: rest).length) :
    ∀ r ∈ [scalar, malformedNumber, after string emitString],
      Declines input bound Unread r (b :: rest) := by
  intro r hr
  have hcalm (budget : Nat) :
      Calm bound (· = (b :: rest).head?) (r.evaluate grammar budget : Step input Builder) :=
    Rule.evaluate_calm_of_refusal (bracket_refusal b hb r hr) budget
  obtain ⟨hstart, hnumber, hquote, hfence⟩ := bracket_starts b hb
  have hnothing : malformedNumber.Builds 4 (fun _ ↦ (none : Option (Unit × List UInt8)))
      (fun _ b ↦ b) (fun _ _ ↦ True) fun _ ↦ True :=
    .of_reads_fail Direct.malformedNumber_reads
  simp only [List.mem_cons, List.not_mem_nil, or_false] at hr
  rcases hr with rfl | rfl | rfl
  · exact .of_builds Direct.scalar_builds hcalm
      (by rw [Direct.keyword_eq_none hstart, Direct.number_eq_none hnumber]; rfl) trivial
      (fun _ _ ↦ trivial) hbytes
  · exact .of_builds hnothing hcalm rfl trivial (fun _ _ ↦ trivial) hbytes
  · exact .of_builds Direct.emitString_builds hcalm
      (Direct.stringValue_eq_none hquote hfence hstart rest) trivial (fun _ h ↦ h) hbytes

theorem vector_declines {b : UInt8} (hb : b ≠ 0x28)
    (hbytes : input.size ≤ bound + (b :: rest).length) :
    Declines input bound Unread vector (b :: rest) :=
  .of_builds Direct.vector_builds
    (fun budget ↦ Rule.evaluate_calm_of_refusal (vector_refusal hb) budget)
    (Direct.vectorValue_eq_none hb rest) trivial (fun _ _ ↦ trivial) hbytes

theorem scope_declines (form : Form) {b : UInt8} (hb : b ≠ opener form)
    (hbytes : input.size ≤ bound + (b :: rest).length) :
    Declines input bound Unread (.leaf (scope form)) (b :: rest) := by
  have hrefuses : (Rule.leaf (scope form)).Builds 1 (fun _ ↦ (none : Option (Unit × List UInt8)))
      (fun _ b ↦ b) (fun _ bytes ↦ bytes.head? ≠ some (opener form)) fun _ ↦ True :=
    Direct.scope_refuses form
  exact .of_builds hrefuses (fun _ ↦ scope_calm form hb) rfl trivial
    (fun _ _ h ↦ hb (Option.some.inj h)) hbytes

/-- A value is fatal where one of the alternatives is, and no other matches. -/
theorem value_fatal (before after : List TextRule) {r : TextRule} {b : UInt8}
    (halternatives : alternatives = before ++ r :: after)
    (hlength : input.size < f.offset + (b :: rest).length)
    (hbefore : ∀ r ∈ before, Declines input f.offset Unread r (b :: rest))
    (hr : Fatal input f Unread r (b :: rest)) (hafter : ∀ r ∈ after, Yields input f b r) :
    Fatal input f Unread value (b :: rest) := by
  have hchoice := choice_fatal hlength hbefore hr hafter (some "value")
  rwa [← halternatives] at hchoice

/-! ## Collections -/

/-- The body of a collection is dropped where it fails. -/
theorem scope_fatal {form : Form}
    (h : Fatal input f Idle (body form (itemSymbol form)) (opener form :: rest)) :
    Fatal input f Unread (.leaf (scope form)) (opener form :: rest) := by
  refine .of_body fun budget outcome s s' hs huser hreply ↦ ?_
  have hpeek : s.peek = some (opener form) := hs.peek_eq
  change (scope form s s.position).run (fun n ↦ (grammar n).evaluate grammar budget) =
    some (outcome, s') at hreply
  rw [scope, if_pos hpeek] at hreply
  have hstart : { s with user := s.user.openBranch form }.Facing f.offset (opener form :: rest) :=
    ⟨hs.rest_eq, hs.resultsSilenced_eq, hs.within⟩
  rcases hmatch : (grammar (bodyOf form)).evaluate grammar budget
      { s with user := s.user.openBranch form } with _ | ⟨o, s₁⟩
  all_goals simp only [Program.run, hmatch] at hreply
  · cases hreply
  rw [grammar_bodyOf] at hmatch
  obtain ⟨rfl, hmarked⟩ := h hstart (Direct.openBranch_idle huser form) hmatch
  cases hreply
  exact ⟨rfl, hmarked⟩

/-- **A value is fatal where it is a collection** whose items cannot be followed by its closing
bracket. -/
theorem collection_fatal (form : Form) (hfluff : Direct.fluff rest = some bytes)
    (hlength : input.size ≤ f.offset + bytes.length)
    (h : FatalSequence input f Idle [itemsOf form, act (collectionEnd form)] bytes) :
    Fatal input f Unread value (opener form :: rest) := by
  have hrest : bytes.length ≤ rest.length := Direct.fluff_length_le hfluff
  have hbytes : input.size < f.offset + (opener form :: rest).length := by
    rw [List.length_cons]
    omega
  have hopener : Passes input f.offset Idle Idle (Rule.byte (opener form)).lookahead
      (opener form :: rest) rest :=
    .of_builds (x := ()) (Direct.opener_builds form)
      (fun budget ↦ lookahead_byte_tidy (opener form) budget) (by simp) (by omega)
      (fun _ _ ↦ trivial) fun _ h ↦ h
  have hbody := ((h.behind (skip_passes hfluff hlength)).behind hopener).fatal none
  have hwords : ∀ r ∈ [scalar, malformedNumber, after string emitString],
      Declines input f.offset Unread r (opener form :: rest) :=
    words_decline (by cases form <;> decide) (Nat.le_of_lt hbytes)
  have hvector : Declines input f.offset Unread vector (opener form :: rest) :=
    vector_declines (by cases form <;> decide) (Nat.le_of_lt hbytes)
  cases form with
  | array =>
    refine value_fatal [scalar, malformedNumber, after string emitString, vector]
      [.leaf (scope .node)] rfl hbytes (fun r hr ↦ ?_) (scope_fatal hbody) fun r hr ↦ ?_
    · rcases List.mem_append.1
        (show r ∈ [scalar, malformedNumber, after string emitString] ++ [vector] from hr)
        with hr | hr
      · exact hwords r hr
      · rw [List.mem_singleton.1 hr]
        exact hvector
    · rw [List.mem_singleton.1 hr]
      exact scope_yields .node (by decide) f
  | node =>
    refine value_fatal [scalar, malformedNumber, after string emitString, vector,
      .leaf (scope .array)] [] rfl hbytes (fun r hr ↦ ?_) (scope_fatal hbody) nofun
    rcases List.mem_append.1 (show r ∈ [scalar, malformedNumber, after string emitString] ++
      [vector, .leaf (scope .array)] from hr) with hr | hr
    · exact hwords r hr
    · simp only [List.mem_cons, List.not_mem_nil, or_false] at hr
      rcases hr with rfl | rfl
      · exact hvector
      · exact scope_declines .array (by decide) (Nat.le_of_lt hbytes)

/-- A closing bracket does not follow where a repetition is stuck. -/
theorem Doomed.closing {item : TextRule} {ready : Builder → Prop}
    (h : Doomed input f ready item bytes) (form : Form) :
    FatalSequence input f ready [(thenFluff item).repeatedOrNone, act (collectionEnd form)]
      bytes := by
  intro budget before outcome s s' hs huser hreply
  obtain ⟨o, s₁, hitems, -, hreply⟩ := Evaluate.inOrder_cons_inv hreply
  obtain ⟨hne, hstuck⟩ := h.stuck hs huser hitems
  obtain ⟨o, s₂, hend, hlast, -⟩ := Evaluate.inOrder_cons_inv (hreply hne)
  obtain ⟨entered, left, hclosing, hsame, hentered, hleft⟩ := act_inv hend
  obtain ⟨hmarked, hcursor, b, hpeek, hb⟩ := hstuck.congr hsame.cursor_eq hentered.furthest_eq
  have hcloser : b ≠ closer form := by
    rintro rfl
    cases form <;> cases hb
  simp only [collectionEnd, hpeek, if_neg hcloser] at hclosing
  cases hclosing
  obtain ⟨rfl, rfl⟩ := hlast rfl
  exact ⟨rfl, (hmarked.fail hcursor _).congr hleft.furthest_eq⟩

/-! ## Vectors -/

/-- The components of a vector, one of which is fatal. -/
theorem components_fatal {before : List UInt8} (hfluff : Direct.fluff before = some bytes)
    (h : Doomed input f (fun _ ↦ True) vectorNumber bytes) :
    Fatal input f (fun _ ↦ True) (.bounded 0x28 0x29
      (.allOf [act Fluff.skip, (thenFluff vectorNumber).repeatedOrNone])) (0x28 :: before) := by
  refine .of_body fun budget outcome s s' hs _ hreply ↦ ?_
  have hpeek : s.peek = some 0x28 := hs.peek_eq
  have hadvanced : (s.advance 1).Facing f.offset before := by
    have ht := Evaluate.bracket_took hs.rest_eq
    exact ⟨ht.rest_eq, ht.resultsSilenced_eq.trans hs.resultsSilenced_eq, hs.within⟩
  change Evaluate.bounded 0x28 0x29 (Rule.evaluate grammar budget
    (.allOf [act Fluff.skip, (thenFluff vectorNumber).repeatedOrNone])) s = some (outcome, s')
    at hreply
  rw [Evaluate.bounded, if_pos hpeek] at hreply
  rcases hinside : Rule.evaluate grammar budget
      (.allOf [act Fluff.skip, (thenFluff vectorNumber).repeatedOrNone]) (s.advance 1)
      with _ | ⟨o, s₁⟩
  · simp only [hinside] at hreply
    cases hreply
  -- inside, the repetition is stuck, and no closing bracket follows
  have hstuck : o ≠ .fail ∧ Stuck f s₁ := by
    rcases budget with _ | budget
    · cases hinside
    obtain ⟨entered, left, hparts, hsame, hentered, hleft, hcursor⟩ := Rule.step_inv hinside
    have hskip :
        Passes input f.offset (fun _ ↦ True) (fun _ ↦ True) (act Fluff.skip) before bytes :=
      skip_passes hfluff (Nat.le_of_lt h.length_lt)
    obtain ⟨s₂, hs₂, -, hparts⟩ :=
      hskip.inOrder (hadvanced.entered hsame hentered) trivial hparts
    obtain ⟨o₂, s₃, hitems, -, hparts⟩ := Evaluate.inOrder_cons_inv hparts
    obtain ⟨hne, hstuck⟩ := h.stuck hs₂ trivial hitems
    cases hparts hne
    rw [ite_self] at hcursor ⊢
    exact ⟨by decide, hstuck.congr hcursor hleft.furthest_eq⟩
  obtain ⟨hne, hmarked, hcursor, b, hb, hcloses⟩ := hstuck
  have hcloser : ¬ s₁.peek = some 0x29 := by
    rw [hb]
    rintro ⟨⟩
    cases hcloses
  rcases o with _ | _ | _
  all_goals simp only [hinside, if_neg hcloser] at hreply
  · cases hreply
    exact ⟨rfl, hmarked.fail hcursor _⟩
  · exact absurd rfl hne
  · cases hreply
    exact ⟨rfl, hmarked.fail hcursor _⟩

/-- **A value is fatal where it is a vector** one component of which is fatal. -/
theorem vector_fatal (hfluff : Direct.fluff rest = some bytes)
    (h : Doomed input f (fun _ ↦ True) vectorNumber bytes) :
    Fatal input f Unread value (0x28 :: rest) := by
  have hrest : bytes.length ≤ rest.length := Direct.fluff_length_le hfluff
  have hbytes : input.size < f.offset + (0x28 :: rest).length := by
    have hlength := h.length_lt
    rw [List.length_cons]
    omega
  have hvector : Fatal input f Unread vector (0x28 :: rest) :=
    ((components_fatal hfluff h).closing _ _).imp fun _ _ ↦ trivial
  refine value_fatal [scalar, malformedNumber, after string emitString]
    [.leaf (scope .array), .leaf (scope .node)] rfl hbytes
    (words_decline (by decide) (Nat.le_of_lt hbytes)) hvector fun r hr ↦ ?_
  simp only [List.mem_cons, List.not_mem_nil, or_false] at hr
  rcases hr with rfl | rfl
  · exact scope_yields .array (by decide) f
  · exact scope_yields .node (by decide) f

/-! ## Members -/

/-- **A member is fatal** where its value is. -/
theorem Stops.member_fatal (h : Stops input f.offset) {name : String} {left : List UInt8}
    (hname : Direct.heading bytes = some (name, rest)) (hfluff : Direct.fluff rest = some left)
    (hlength : input.size ≤ f.offset + left.length) (hvalue : Fatal input f Unread value left) :
    Fatal input f Idle member bytes := by
  have hrest : left.length ≤ rest.length := Direct.fluff_length_le hfluff
  have hheading : Passes input f.offset Idle Unread memberName bytes rest :=
    .of_builds Direct.memberName_builds h.memberName_tidy hname (by omega) (fun _ _ ↦ trivial)
      fun _ _ ↦ rfl
  have hsymbol : Fatal input f Unread (.symbol .value) left := Fatal.symbol hvalue
  exact ((FatalSequence.here hsymbol).behind (skip_passes hfluff hlength)).behind hheading
    |>.fatal (some "member")

/-- A name does not begin with a closing bracket. -/
theorem heading_opens {name : String} (h : Direct.heading bytes = some (name, rest)) :
    ∃ b ∈ bytes.head?, closesNothing b = true := by
  rcases bytes with _ | ⟨b, bytes⟩
  · cases h
  refine ⟨b, rfl, ?_⟩
  by_contra hb
  rw [Direct.heading, Direct.string_eq_none_of_closes (Bool.not_eq_true _ ▸ hb)] at h
  cases h

end TextGrammar

/-! ## Places -/

namespace Direct

open TextGrammar (Fatal Doomed Stops)

/-- What stands at a stage is fatal, or one of the items is. -/
def FatalAt (input : Array UInt8) (f : Failure) : Stage → List UInt8 → Prop
  | .value, bytes =>
    (∃ b ∈ bytes.head?, closesNothing b = true) ∧ Fatal input f Unread TextGrammar.value bytes
  | .items form, bytes => Doomed input f Idle (.symbol (itemSymbol form)) bytes

/-- **What is around a fatal value is fatal.** -/
theorem Place.fatal {f : Failure} (hstops : Stops input f.offset) {target : List UInt8}
    (hlength : input.size < f.offset + target.length) (htarget : FatalAt input f .value target)
    {stage : Stage} {bytes : List UInt8} (h : Place target stage bytes) :
    input.size < f.offset + bytes.length ∧ FatalAt input f stage bytes := by
  induction h with
  | here => exact ⟨hlength, htarget⟩
  | @inside form rest bytes hfluff _ ih =>
    obtain ⟨hbytes, hdoomed⟩ := ih
    have hrest : bytes.length ≤ rest.length := fluff_length_le hfluff
    refine ⟨by rw [List.length_cons]; omega, ⟨_, rfl, by cases form <;> rfl⟩, ?_⟩
    exact TextGrammar.collection_fatal form hfluff (Nat.le_of_lt hbytes) (hdoomed.closing form)
  | element _ ih =>
    obtain ⟨hbytes, hopens, hfatal⟩ := ih
    exact ⟨hbytes, .here (Fatal.symbol (hfatal.imp fun _ h ↦ h.scratch_eq)) hbytes hopens⟩
  | @member bytes rest left name hname hfluff _ ih =>
    obtain ⟨hleft, -, hfatal⟩ := ih
    have hrest : left.length ≤ rest.length := fluff_length_le hfluff
    have hheading : rest.length < bytes.length := heading_shortens hname
    have hbytes : input.size < f.offset + bytes.length := by omega
    exact ⟨hbytes, .here
      (Fatal.symbol (hstops.member_fatal hname hfluff (Nat.le_of_lt hleft) hfatal))
      hbytes (TextGrammar.heading_opens hname)⟩
  | @later form bytes rest left depth doc hitem hfluff _ ih =>
    obtain ⟨hleft, hdoomed⟩ := ih
    have hrest : left.length ≤ rest.length := fluff_length_le hfluff
    have hbytes : rest.length < bytes.length :=
      itemOf_shortens form (value_shortens depth) hitem
    exact ⟨by omega, .later (hstops.item_passes hitem (by omega)) hfluff (by omega) hdoomed⟩

end Direct

/-! ## Documents -/

namespace Doc

/-- **A document is not read where a value is fatal**, and that failure is the answer. -/
theorem read_of_fatal (root : Doc) {f : Failure} (hstops : TextGrammar.Stops input f.offset)
    (hoffset : f.offset ≤ input.size)
    (hclip : Utf8.clip ParseError.messageLimit f.message = f.message) {target : List UInt8}
    (hlength : input.size < f.offset + target.length)
    (htarget : Direct.FatalAt input f .value target)
    (hplace : Direct.DocumentPlace target input.toList) :
    (root.read input).1 =
      .error ⟨({} : Location).skip (State.between input 0 f.offset), f.message⟩ := by
  obtain ⟨rest, hfluff, hplace⟩ := hplace
  obtain ⟨hrest, hdoomed⟩ := hplace.fatal hstops hlength htarget
  refine read_of_reported hoffset hclip fun outcome s' hreply ↦ ?_
  obtain ⟨less, o, s₁, s₂, hrest₁, huser, hresults, hheeds, hmembers, hend⟩ :=
    TextGrammar.document_reports rfl rfl (by rw [beginning_rest]; exact hfluff) hreply
  have hcursor : s₁.cursor ≤ f.offset := by
    have hadd := s₁.length_rest
    rw [hrest₁] at hadd
    omega
  have hfacing : s₁.Facing f.offset rest :=
    ⟨hrest₁, hresults, (hheeds f.offset).within hcursor (beginning_within _)⟩
  obtain ⟨hne, hmarked, hlt, b, hpeek, -⟩ := hdoomed.stuck hfacing (huser ▸ beginning_idle) hmembers
  obtain ⟨hfail, hreported⟩ := hend hne b hpeek
  exact ⟨hfail, hreported.trans (hmarked.later_eq hlt)⟩

end Doc

end DocGrammar
