import DocGrammar.Proofs.Diagnostics.NumberPlaces

/-!
# Numbers that are malformed

Where a number may stand, a word that begins like one is tried as a decimal and as a whole number,
and if it is neither, it is taken whole, only to be rejected behind its last byte.  The attempts
before do not get behind the word, so that failure is the furthest (`malformedNumber_fatal`); and
nothing makes up for it, be the word a value or a component of a vector, however deep
(`Direct.NumberPlace.fatal`).  Since numbers are tried nowhere else, that is so wherever the reader
enters the rule for a value or for a component (`Doc.read_malformed`).
-/

set_option autoImplicit false

namespace DocGrammar

variable {input : Array UInt8}

namespace TextGrammar

open Direct (isNumberLike startsNumber)

/-! ## The word -/

/-- The longest run of bytes that may stand in a word that begins like a number. -/
def numberWord (bytes : List UInt8) : List UInt8 := bytes.takeWhile isNumberLike

/-- What is wrong with a word that begins like a number and is none. -/
def malformedMessage (word : List UInt8) : String :=
  if word.any Byte.isDigit then
    if (Numeral.parse? word).any fun numeral ↦ (numeral.round .binary64).isInfinite then
      "number out of range"
    else "malformed number"
  else "missing numeral part in number"

/-- The failure behind that word. -/
def malformed (input : Array UInt8) (bytes : List UInt8) : Failure :=
  let offset := input.size - bytes.length + (numberWord bytes).length
  ⟨offset, input[offset]?, .message (malformedMessage (numberWord bytes))⟩

theorem rejectNumber_eq_fail (s : State input Builder) (start : Position) :
    rejectNumber s start = s.fail (.message (malformedMessage (s.matched start))) := by
  simp only [rejectNumber, malformedMessage]
  split_ifs
  · rfl
  · rfl
  · rfl

theorem isNumberLike_of_starts {b : UInt8} (h : startsNumber b = true) : isNumberLike b = true := by
  simp only [startsNumber, Direct.isSign, Bool.or_eq_true, beq_iff_eq] at h
  rcases h with (hdigit | rfl | rfl) | rfl
  · simp [isNumberLike, Byte.isIdentifier, hdigit]
  · rfl
  · rfl
  · rfl

theorem numberWord_cons {b : UInt8} (h : startsNumber b = true) (rest : List UInt8) :
    numberWord (b :: rest) = b :: rest.takeWhile isNumberLike :=
  List.takeWhile_cons_of_pos (isNumberLike_of_starts h)

/-- No word goes on behind it. -/
theorem stops_behind {before word left : List UInt8}
    (hinput : input.toList = before ++ (word ++ left))
    (hleft : ∀ b ∈ left.head?, isNumberLike b = false) :
    Stops input (before.length + word.length) := by
  rcases left with _ | ⟨b, left⟩
  · refine .inr ?_
    rw [← Array.length_toList, hinput, List.append_nil, List.length_append]
  · refine .inl ⟨b, ?_, hleft b rfl⟩
    rw [← Array.getElem?_toList, hinput, ← List.append_assoc, ← List.length_append,
      List.getElem?_append_right (Nat.le_refl _), Nat.sub_self]
    rfl

theorem malformed_stops {offset : Nat} (hoffset : offset ≤ input.size) :
    Stops input (malformed input (input.toList.drop offset)).offset := by
  let bytes := input.toList.drop offset
  have hinput : input.toList =
      input.toList.take offset ++ (numberWord bytes ++ bytes.dropWhile isNumberLike) := by
    rw [numberWord, List.takeWhile_append_dropWhile, List.take_append_drop]
  have hstops := stops_behind hinput fun b hb ↦ by
    have hhead := List.head?_dropWhile_not isNumberLike bytes
    rw [Option.mem_def.1 hb] at hhead
    exact hhead
  have hlength : (input.toList.take offset).length = input.size - bytes.length := by
    simp only [bytes, List.length_take, List.length_drop, Array.length_toList]
    omega
  rwa [hlength] at hstops

/-- The rules that are tried at such a word take nothing but its bytes. -/
theorem attempts_fit :
    ∀ r ∈ [delimited Leaf.decimalAny, delimited Leaf.signedAny, Direct.numberSpan],
      r.fitsWithin grammar isInert isNumberLike wordHeight = true := by
  decide +kernel

theorem attempts_plain : ∀ r ∈ [delimited Leaf.decimalAny, delimited Leaf.signedAny,
    Direct.numberSpan], r.Every (PlainAction isNumberLike) := by
  have hactions := words_plain isNumberLike
  intro r hr
  simp only [List.mem_cons, List.not_mem_nil, or_false] at hr
  rcases hr with rfl | rfl | rfl
  · exact hactions.delimited hactions.decimalAny
  · exact hactions.delimited hactions.signedAny
  · simp [Direct.numberSpan]

theorem attempts_wordlike {bound : Nat} (h : Stops input bound) {r : TextRule}
    (hr : r ∈ [delimited Leaf.decimalAny, delimited Leaf.signedAny, Direct.numberSpan])
    (budget : Nat) : Wordlike bound (r.evaluate grammar budget : Step input Builder) :=
  h.wordlike (attempts_plain r hr) (attempts_fit r hr) budget

/-! ## Rejecting it -/

section

variable {b : UInt8} {rest : List UInt8} {ready : Builder → Prop} (hb : startsNumber b = true)
  (hstops : Stops input (malformed input (b :: rest)).offset)

include hb

theorem malformed_lt (rest : List UInt8) :
    input.size < (malformed input (b :: rest)).offset + (b :: rest).length := by
  have hword : 0 < (numberWord (b :: rest)).length := by
    rw [numberWord_cons hb]
    exact Nat.succ_pos _
  show input.size < input.size - _ + _ + _
  omega

include hstops

/-- **A word that begins like a number is rejected** behind its last byte. -/
theorem malformedNumber_fatal :
    Fatal input (malformed input (b :: rest)) ready malformedNumber (b :: rest) := by
  refine .of_body fun budget outcome s s' hs _ hreply ↦ ?_
  change Evaluate.kind grammar (Rule.evaluate grammar budget) none
    (.closing Direct.numberSpan (DirectAction.toAction rejectNumber)) s.position s =
      some (outcome, s') at hreply
  rcases hmatch : Direct.numberSpan.evaluate grammar budget s with _ | ⟨o, s₁⟩
  · simp only [Evaluate.kind, hmatch] at hreply
    cases hreply
  have hspan : Direct.numberSpan.Reads grammar true 3 (Direct.headed startsNumber isNumberLike) :=
    Direct.numberSpan_reads
  obtain ⟨reply, hreads, hfits⟩ :=
    hspan input 3 (Nat.le_refl _) s fun _ ↦ hs.resultsSilenced_eq
  cases Rule.evaluate_unique hmatch hreads
  rw [hs.rest_eq, Direct.headed_cons, if_pos hb, ← numberWord_cons hb] at hfits
  cases hfits with
  | ok ht =>
    have hcursor : s₁.cursor = (malformed input (b :: rest)).offset := by
      have hadd := hs.cursor_add
      rw [ht.cursor_eq]
      show _ = input.size - _ + _
      omega
    have hwithin : s₁.Within (malformed input (b :: rest)).offset := by
      have hword := attempts_wordlike hstops (by simp) budget hmatch
      have hle : s.cursor ≤ (malformed input (b :: rest)).offset := by
        rw [← hcursor, ht.cursor_eq]
        exact Nat.le_add_right _ _
      exact hword.1.spares hle hs.within
    simp only [Evaluate.kind, hmatch, if_pos (ht.resultsSilenced_eq.trans hs.resultsSilenced_eq),
      DirectAction.toAction, Program.run, rejectNumber_eq_fail, ht.matched_eq] at hreply
    cases hreply
    refine ⟨rfl, ?_⟩
    have hmarked := State.Within.marked_fail (s := s₁) (hcursor ▸ hwithin)
      (.message (malformedMessage (numberWord (b :: rest))))
    rwa [hcursor] at hmarked

/-! ## Values and components -/

omit hstops in
/-- The alternatives that are tried behind it do not begin like a number. -/
theorem others_yield (f : Failure) : ∀ r ∈ [after string emitString, vector, .leaf (scope .array),
    .leaf (scope .node)], Yields input f b r := by
  have hne {c : UInt8} (hc : startsNumber c = false) : b ≠ c := by
    rintro rfl
    exact Bool.false_ne_true (hc.symm.trans hb)
  have hstring : (after string emitString).refusal grammar b wordHeight = some .fail :=
    Byte.forall_of_lt (P := fun b ↦ startsNumber b = true →
      (after string emitString).refusal grammar b wordHeight = some .fail) (by decide +kernel) b hb
  intro r hr
  simp only [List.mem_cons, List.not_mem_nil, or_false] at hr
  rcases hr with rfl | rfl | rfl | rfl
  · exact yields_of_refusal hstring f
  · exact yields_of_refusal (vector_refusal (hne rfl)) f
  · exact scope_yields .array (hne rfl) f
  · exact scope_yields .node (hne rfl) f

/-- **A malformed number as a value.** -/
theorem malformed_value (hnumber : Direct.number (b :: rest) = none) :
    Direct.FatalAt input (malformed input (b :: rest)) .value (b :: rest) := by
  have hlength : input.size < (malformed input (b :: rest)).offset + (b :: rest).length :=
    malformed_lt hb rest
  have hstart : Byte.isIdentifierStart b = false := Bool.eq_false_iff.2 fun hstart ↦
    Bool.false_ne_true ((Direct.startsNumber_false hstart).symm.trans hb)
  have hopens : Direct.closesNothing b = true := by
    by_contra hcloses
    have hlike := isNumberLike_of_closes (Bool.not_eq_true _ ▸ hcloses)
    exact Bool.false_ne_true (hlike.symm.trans (isNumberLike_of_starts hb))
  refine ⟨⟨b, rfl, hopens⟩, value_fatal [scalar] _ rfl hlength (fun r hr ↦ ?_)
    (malformedNumber_fatal hb hstops) (others_yield hb _)⟩
  rw [List.mem_singleton.1 hr]
  have hscalar (budget : Nat) : Wordlike (malformed input (b :: rest)).offset
      (scalar.evaluate grammar budget : Step input Builder) :=
    hstops.wordlike (words_plain _).scalar (tokens_fit _ (by simp)) budget
  exact .of_builds Direct.scalar_builds (fun budget ↦ (hscalar budget).calm)
    (by rw [Direct.keyword_eq_none hstart, hnumber]; rfl) trivial (fun _ _ ↦ trivial)
    (Nat.le_of_lt hlength)

/-- An attempt that reads nothing of such a word declines it. -/
theorem attempt_declines {r : TextRule} {p : Scanner} {depth : Nat}
    {read : List UInt8 → Option (Content Doc × List UInt8)}
    (hr : r ∈ [delimited Leaf.decimalAny, delimited Leaf.signedAny, Direct.numberSpan])
    (hreads : r.Reads grammar true depth p) (hgives : p.Gives read)
    (hnone : read (b :: rest) = none) :
    Declines input (malformed input (b :: rest)).offset ready r (b :: rest) := by
  have hscan := hgives (b :: rest)
  rw [hnone] at hscan
  exact .of_reads hreads (fun budget ↦ (attempts_wordlike hstops hr budget).calm) hscan
    (Nat.le_of_lt (malformed_lt hb rest))

/-- **A malformed number as a component.** -/
theorem malformed_component (hnumber : Direct.number (b :: rest) = none) :
    Fatal input (malformed input (b :: rest)) ready vectorNumber (b :: rest) := by
  have hlength : input.size < (malformed input (b :: rest)).offset + (b :: rest).length :=
    malformed_lt hb rest
  obtain ⟨hdecimal, hinteger⟩ := Option.or_eq_none_iff.1 hnumber
  have hattempts : ∀ r ∈ [delimited Leaf.decimalAny, delimited Leaf.signedAny],
      Declines input (malformed input (b :: rest)).offset ready r (b :: rest) := by
    intro r hr
    simp only [List.mem_cons, List.not_mem_nil, or_false] at hr
    rcases hr with rfl | rfl
    · exact attempt_declines hb hstops (by simp) (Direct.delimited_reads Direct.decimalAny_reads)
        Direct.delimitedDecimal_gives hdecimal
    · exact attempt_declines hb hstops (by simp) (Direct.delimited_reads Direct.signedAny_reads)
        Direct.delimitedInteger_gives hinteger
  have hlast : Fatal input (malformed input (b :: rest)) ready malformedNumber (b :: rest) :=
    malformedNumber_fatal hb hstops
  have hothers : ∀ r ∈ ([] : List TextRule), Yields input (malformed input (b :: rest)) b r := nofun
  have hchoice := choice_fatal hlength hattempts hlast hothers none
  exact hchoice

end

/-! ## Behind other components -/

theorem vectorNumber_plain : vectorNumber.Every (PlainAction isNumberLike) := by
  have hactions := words_plain isNumberLike
  exact ⟨hactions.delimited hactions.decimalAny, hactions.delimited hactions.signedAny,
    hactions.malformedNumber, trivial⟩

/-- Where a number can be read directly, the rule for a component matches. -/
theorem Stops.number_passes {bound : Nat} (h : Stops input bound) {ready : Builder → Prop}
    {bytes rest : List UInt8} {content : Content Doc}
    (hnumber : Direct.number bytes = some (content, rest))
    (hrest : input.size ≤ bound + rest.length) :
    Passes input bound ready ready vectorNumber bytes rest := by
  have hgives := Direct.numberScanner_gives bytes
  rw [hnumber] at hgives
  obtain ⟨token, value, hscan, -⟩ := hgives
  exact .of_reads vectorNumber_reads
    (fun budget ↦ (h.wordlike vectorNumber_plain (tokens_fit _ (by simp)) budget).tidy) hscan hrest

end TextGrammar

/-! ## Places of numbers -/

namespace Direct

theorem Components.doomed {f : Failure} (hstops : TextGrammar.Stops input f.offset)
    {target : List UInt8} (hlength : input.size < f.offset + target.length)
    (hopens : ∃ b ∈ target.head?, closesNothing b = true)
    (htarget : TextGrammar.Fatal input f (fun _ ↦ True) TextGrammar.vectorNumber target)
    {bytes : List UInt8} (h : Components target bytes) :
    TextGrammar.Doomed input f (fun _ ↦ True) TextGrammar.vectorNumber bytes := by
  induction h with
  | here => exact .here htarget hlength hopens
  | @later bytes rest left content hnumber hfluff _ ih =>
    have hleft : left.length ≤ rest.length := fluff_length_le hfluff
    have hrest : rest.length < bytes.length := number_shortens hnumber
    have hdoomed := ih.length_lt
    exact .later (hstops.number_passes hnumber (by omega)) hfluff (by omega) ih

/-- **Around a number that is fatal, be it a value or a component, there is a value that is.** -/
theorem NumberPlace.fatal {f : Failure} (hstops : TextGrammar.Stops input f.offset)
    {target : List UInt8} (hlength : input.size < f.offset + target.length)
    (hvalue : FatalAt input f .value target)
    (hcomponent : TextGrammar.Fatal input f (fun _ ↦ True) TextGrammar.vectorNumber target)
    {bytes : List UInt8} (h : NumberPlace target bytes) :
    ∃ around, input.size < f.offset + around.length ∧ FatalAt input f .value around ∧
      DocumentPlace around bytes := by
  rcases h with hplace | ⟨before, left, hplace, hfluff, hcomponents⟩
  · exact ⟨target, hlength, hvalue, hplace⟩
  · have hdoomed := hcomponents.doomed hstops hlength hvalue.1 hcomponent
    have hvector : FatalAt input f .value (0x28 :: before) :=
      ⟨⟨_, rfl, rfl⟩, TextGrammar.vector_fatal hfluff hdoomed⟩
    refine ⟨_, ?_, hvector, hplace⟩
    have hbefore : left.length ≤ before.length := fluff_length_le hfluff
    have hleft := hdoomed.length_lt
    rw [List.length_cons]
    omega

end Direct

/-! ## Documents -/

namespace Doc

open TextGrammar (TextRule grammar delimited malformed malformedMessage numberRules numberWord)

/-- At an offset of the input, a rule does not match. -/
def Misses (input : Array UInt8) (offset : Nat) (r : TextRule) : Prop :=
  ∃ s : State input Builder, s.cursor = offset ∧ s.resultsSilenced = 0 ∧
    ∀ budget s', r.evaluate grammar budget s ≠ some (.ok, s')

theorem Misses.eq_none {offset depth : Nat} {r : TextRule} {p : Scanner}
    {read : List UInt8 → Option (Content Doc × List UInt8)} (h : Misses input offset r)
    (hreads : r.Reads grammar true depth p) (hgives : p.Gives read) :
    read (input.toList.drop offset) = none := by
  obtain ⟨s, rfl, hresults, hmisses⟩ := h
  obtain ⟨reply, hreply, hfits⟩ := hreads input depth (Nat.le_refl _) s fun _ ↦ hresults
  have hgives := hgives s.rest
  rw [← State.rest_eq]
  rcases hread : read s.rest with _ | ⟨content, rest⟩
  · rfl
  · rw [hread] at hgives
    obtain ⟨token, value, hscan, -⟩ := hgives
    rw [hscan] at hfits
    cases hfits with
    | ok _ => exact absurd hreply (hmisses depth _)

theorem number_eq_none_of_misses {offset : Nat}
    (h : ∀ r ∈ [delimited Leaf.decimalAny, delimited Leaf.signedAny], Misses input offset r) :
    Direct.number (input.toList.drop offset) = none :=
  Option.or_eq_none_iff.2
    ⟨(h _ (by simp)).eq_none (Direct.delimited_reads Direct.decimalAny_reads)
      Direct.delimitedDecimal_gives,
    (h _ (by simp)).eq_none (Direct.delimited_reads Direct.signedAny_reads)
      Direct.delimitedInteger_gives⟩

theorem malformed_clip (bytes : List UInt8) :
    Utf8.clip ParseError.messageLimit (malformed input bytes).message =
      (malformed input bytes).message := by
  show Utf8.clip _ (malformedMessage (numberWord bytes)) = malformedMessage (numberWord bytes)
  rw [malformedMessage]
  split_ifs
  all_goals decide

/-- **Malformed numbers are reported as such.**  Let the reader enter, at any depth, the rule for a
value or for a component of a vector where a word begins with a digit, a sign or a point.  If it is
neither a decimal nor a whole number that is followed by a delimiter, the document is not read, and
the answer is located at the end of the word.  It says that there is no digit in the word if there
is none; otherwise that the number is out of range if the word can be parsed, but is infinite; and
otherwise that it is malformed. -/
theorem read_malformed (root : Doc) {r : TextRule} {offset : Nat} (hr : r ∈ numberRules)
    (henters : root.Enters input r offset)
    (hstart : ∃ b ∈ input[offset]?, Direct.startsNumber b = true)
    (hmisses : ∀ r ∈ [delimited Leaf.decimalAny, delimited Leaf.signedAny],
      Misses input offset r) :
    (root.read input).1 =
      .error ⟨({} : Location).skip
          (input.toList.take (offset + (numberWord (input.toList.drop offset)).length)),
        malformedMessage (numberWord (input.toList.drop offset))⟩ := by
  have hplace := henters.place hr
  obtain ⟨b, hbyte, hb⟩ := hstart
  have hoffset : offset < input.size := (Array.getElem?_eq_some_iff.1 hbyte).1
  have hstops := TextGrammar.malformed_stops (Nat.le_of_lt hoffset)
  have hnumber := number_eq_none_of_misses hmisses
  have hlength : (input.toList.drop offset).length = input.size - offset := by
    rw [List.length_drop, Array.length_toList]
  have hword : (numberWord (input.toList.drop offset)).length ≤ input.size - offset := by
    rw [← hlength]
    exact (List.takeWhile_prefix _).length_le
  have hend : (malformed input (input.toList.drop offset)).offset =
      offset + (numberWord (input.toList.drop offset)).length := by
    show input.size - _ + _ = _
    omega
  obtain ⟨rest, htarget⟩ : ∃ rest, input.toList.drop offset = b :: rest := by
    refine List.head?_eq_some_iff.1 ?_
    rw [List.head?_drop, Array.getElem?_toList]
    exact hbyte
  rw [htarget] at hplace hstops hnumber hword hend ⊢
  have hlt : input.size < (malformed input (b :: rest)).offset + (b :: rest).length :=
    TextGrammar.malformed_lt hb rest
  obtain ⟨around, haround, hfatal, hplace⟩ := hplace.fatal hstops hlt
    (TextGrammar.malformed_value hb hstops hnumber)
    (TextGrammar.malformed_component hb hstops hnumber)
  rw [read_of_fatal root hstops (by omega) (malformed_clip _) haround hfatal hplace, hend,
    State.between_eq, List.drop_zero, Nat.sub_zero]
  rfl

/-- The bytes `a = -`. -/
def loneSign : Array UInt8 := #[0x61, 0x20, 0x3D, 0x20, 0x2D]

/-- The bytes `a = (1e999)`. -/
def hugeComponent : Array UInt8 :=
  #[0x61, 0x20, 0x3D, 0x20, 0x28, 0x31, 0x65, 0x39, 0x39, 0x39, 0x29]

/-- Rules that fail with some budget do not match with any. -/
theorem misses_of_fail (s : State input Builder) (hresults : s.resultsSilenced = 0) (budget : Nat)
    {rules : List TextRule}
    (h : ∀ r ∈ rules, (r.evaluate grammar budget s).map Prod.fst = some .fail) :
    ∀ r ∈ rules, Misses input s.cursor r := by
  intro r hr
  obtain ⟨⟨outcome, s₁⟩, hreply, rfl⟩ := Option.map_eq_some_iff.1 (h r hr)
  refine ⟨s, rfl, hresults, fun budget' s' hok ↦ ?_⟩
  cases Rule.evaluate_unique hok hreply

/-- A rule is entered if one of the events says so. -/
theorem enters_of_traced {root : Doc} {r : TextRule} {offset : Nat} (i : Nat)
    (h : (State.parse grammar (readBudget input.size) TextGrammar.document
      { initialState root input with trace := some #[] }).any (fun answer ↦ answer.2.trace.any
        fun events ↦ events.toList[i]? = some (.enter (r.label grammar) offset)) = true) :
    root.Enters input r offset := by
  obtain ⟨answer, hanswer, h⟩ := (Option.any_eq_true _ _).1 h
  obtain ⟨events, hevents, h⟩ := (Option.any_eq_true _ _).1 h
  have hentered := List.mem_of_getElem? (of_decide_eq_true h)
  exact ⟨answer, events, hanswer, hevents, Array.mem_toList_iff.1 hentered⟩

/-- A sign by itself as a value, and a number that is too great as a component of a vector. -/
theorem read_malformed_loneSign :
    (({} : Doc).read loneSign).1 = .error ⟨⟨1, 6⟩, "missing numeral part in number"⟩ ∧
      (({} : Doc).read hugeComponent).1 = .error ⟨⟨1, 11⟩, "number out of range"⟩ := by
  constructor
  · have henters : ({} : Doc).Enters loneSign TextGrammar.value 4 :=
      enters_of_traced 56 (by decide +kernel)
    have hmisses : ∀ r ∈ [delimited Leaf.decimalAny, delimited Leaf.signedAny],
        Misses loneSign 4 r :=
      misses_of_fail ⟨4, by decide, [], 0, 0, {}, 0, none, none, none,
        ⟨⟨.empty, .array, {}⟩, [], none, ""⟩⟩ rfl 20 (by decide +kernel)
    rw [read_malformed _ (by simp [numberRules]) henters ⟨0x2D, rfl, rfl⟩ hmisses]
    decide
  · have henters : ({} : Doc).Enters hugeComponent TextGrammar.vectorNumber 5 :=
      enters_of_traced 216 (by decide +kernel)
    have hmisses : ∀ r ∈ [delimited Leaf.decimalAny, delimited Leaf.signedAny],
        Misses hugeComponent 5 r :=
      misses_of_fail ⟨5, by decide, [], 0, 0, {}, 0, none, none, none,
        ⟨⟨.empty, .array, {}⟩, [], none, ""⟩⟩ rfl 20 (by decide +kernel)
    rw [read_malformed _ (by simp [numberRules]) henters ⟨0x31, rfl, rfl⟩ hmisses]
    decide +kernel

end Doc
end DocGrammar
