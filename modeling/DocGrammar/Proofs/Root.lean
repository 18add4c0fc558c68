import DocGrammar.Doc.Grammar
import DocGrammar.Proofs.Equivariance
import DocGrammar.Proofs.GrammarActions

/-!
# The root of a document under construction

While collections are open, the root lies at the bottom of the stack, and while none is, it is the
collection that takes the next value.  In both places the grammar's actions add children to it and
do nothing else: they neither change its name and form nor look at them.

So every action commutes with `retitle`, which makes the root a node of another name, and by
`Proofs.Equivariance` all matching does.  Two things follow.  What is read does not depend on the
name of the root; and since a root that is a node of its own name is not changed by `retitle`, it
is one afterwards too, whatever was open when the text turned out to be wrong.
-/

set_option autoImplicit false

namespace DocGrammar

/-! ## Changing the root -/

/-- A node of another name with the same children. -/
def Branch.retitle (name : Name) (b : Branch) : Branch := { b with name, form := .node }

/-- Changes the outermost of some open collections, the innermost of which stands by itself. -/
def onRoot (f : Branch → Branch) : Branch → List Branch → Branch × List Branch
  | current, [] => (f current, [])
  | current, parent :: rest => (current, (onRoot f parent rest).1 :: (onRoot f parent rest).2)

/-- Makes the root a node of another name. -/
def Builder.retitle (name : Name) (b : Builder) : Builder :=
  { b with
    current := (onRoot (Branch.retitle name) b.current b.enclosing).1
    enclosing := (onRoot (Branch.retitle name) b.current b.enclosing).2 }

section

variable (name : Name)

theorem onRoot_push (d : Doc) (current : Branch) (enclosing : List Branch) :
    onRoot (Branch.retitle name) (current.push d) enclosing =
      ((onRoot (Branch.retitle name) current enclosing).1.push d,
        (onRoot (Branch.retitle name) current enclosing).2) := by
  cases enclosing with
  | nil => rfl
  | cons parent rest => rfl

theorem onRoot_getLast (f : Branch → Branch) (current : Branch) (enclosing : List Branch) :
    (onRoot f current enclosing).2.getLast?.getD (onRoot f current enclosing).1 =
      f (enclosing.getLast?.getD current) := by
  induction enclosing generalizing current with
  | nil => rfl
  | cons parent rest ih =>
    rw [onRoot, List.getLast?_cons, List.getLast?_cons]
    exact ih parent

namespace Builder

theorem retitle_emit (content : Content Doc) (b : Builder) :
    (b.retitle name).emit content = (b.emit content).retitle name := by
  show Builder.mk _ _ _ _ = Builder.mk _ _ _ _
  simp only [emit, onRoot_push]
  rfl

theorem retitle_closeBranch (b : Builder) :
    (b.retitle name).closeBranch = b.closeBranch.retitle name := by
  obtain ⟨current, enclosing, pending, scratch⟩ := b
  cases enclosing with
  | nil => rfl
  | cons parent rest =>
    show Builder.mk _ _ _ _ = Builder.mk _ _ _ _
    simp only [closeBranch, onRoot_push]
    rfl

theorem retitle_discardBranch (b : Builder) :
    (b.retitle name).discardBranch = b.discardBranch.retitle name := by
  obtain ⟨current, enclosing, pending, scratch⟩ := b
  cases enclosing with
  | nil => rfl
  | cons parent rest => rfl

/-- The document is the root. -/
theorem retitle_finish (b : Builder) :
    (b.retitle name).finish =
      ⟨name, .collection .node (b.enclosing.getLast?.getD b.current).children⟩ :=
  congrArg Branch.toDoc (onRoot_getLast _ b.current b.enclosing)

end Builder

end

/-! ## The actions of the grammar -/

section

variable {U : Type} {f : U → U} {input : Array UInt8}

theorem skip_equivariant : EquivariantReply f Fluff.skip := by
  intro input s start
  simp only [Fluff.skip, State.mapUser_cursor]
  generalize Fluff.scan input (input.size - s.cursor) .between s.cursor = found
  obtain ⟨ending, offset⟩ := found
  cases ending with
  | clean => rfl
  | straySlash => exact (s.moveTo offset).mapUser_fail f _
  | unclosed => exact (s.moveTo offset).mapUser_fail f _

theorem closeDecimal_equivariant : EquivariantReply f Leaf.closeDecimal := by
  intro input s start
  simp only [Leaf.closeDecimal, State.mapUser_sliceSince]
  split
  · exact s.mapUser_fail f _
  · split
    · exact s.mapUser_okReplace f _ _
    · exact s.mapUser_fail f _

theorem closeUnsigned_equivariant (radix : Nat) :
    EquivariantReply f (Leaf.closeUnsigned radix) := by
  intro input s start
  simp only [Leaf.closeUnsigned, State.mapUser_sliceSince]
  split
  · exact s.mapUser_okReplace f _ _
  · exact s.mapUser_fail f _

theorem closeSigned_equivariant : EquivariantReply f Leaf.closeSigned := by
  intro input s start
  simp only [Leaf.closeSigned, State.mapUser_resultsSince]
  split
  · exact s.mapUser_fail f _
  · split
    · exact s.mapUser_okReplace f _ _
    · exact s.mapUser_fail f _

end

section

variable {f : Builder → Builder}

theorem delimiter_equivariant : EquivariantReply f TextGrammar.delimiter := by
  intro input s start
  simp only [TextGrammar.delimiter, State.mapUser_peek]
  split
  · split
    · exact s.mapUser_fail f _
    · rfl
  · rfl

theorem quotedEnd_equivariant : EquivariantReply f TextGrammar.quotedEnd := by
  intro input s start
  simp only [TextGrammar.quotedEnd, State.mapUser_peek]
  split
  · split
    · rfl
    · split
      · exact s.mapUser_fail f _
      · exact s.mapUser_fail f _
  · exact s.mapUser_fail f _

theorem blockBody_equivariant : EquivariantReply f TextGrammar.blockBody := by
  intro input s start
  simp only [TextGrammar.blockBody, State.mapUser_rest]
  split
  · exact (s.advance _).mapUser_okWith f _
  · exact (s.moveTo _).mapUser_fail f _

theorem rejectNumber_equivariant : EquivariantReply f TextGrammar.rejectNumber := by
  intro input s start
  show TextGrammar.rejectNumber (s.mapUser f) start = mapReply f (TextGrammar.rejectNumber s start)
  rw [TextGrammar.rejectNumber, TextGrammar.rejectNumber, State.mapUser_matched]
  split
  · split
    · exact s.mapUser_fail f _
    · exact s.mapUser_fail f _
  · exact s.mapUser_fail f _

theorem collectionEnd_equivariant (form : Form) :
    EquivariantReply f (TextGrammar.collectionEnd form) := by
  intro input s start
  simp only [TextGrammar.collectionEnd, State.mapUser_peek]
  split
  · split
    · rfl
    · exact s.mapUser_fail f _
  · exact s.mapUser_fail f _

theorem documentEnd_equivariant : EquivariantReply f TextGrammar.documentEnd := by
  intro input s start
  simp only [TextGrammar.documentEnd, State.mapUser_peek]
  split
  · rfl
  · split
    · exact s.mapUser_fail f _
    · split
      · exact s.mapUser_fail f _
      · split
        · exact s.mapUser_fail f _
        · exact s.mapUser_fail f _

end

/-! ## The actions that build -/

section

variable (name : Name) {input : Array UInt8}

theorem built_mapUser (f change : Builder → Builder) (h : ∀ b, change (f b) = f (change b))
    (s : State input Builder) (start : Position) :
    TextGrammar.built (s.mapUser f) start change = mapReply f (TextGrammar.built s start change) :=
  congrArg (fun b ↦ (Outcome.ok, { s.truncate start with user := b })) (h s.user)

theorem keepText_mapUser (text : Option String) (s : State input Builder) (start : Position) :
    TextGrammar.keepText text (s.mapUser (Builder.retitle name)) start =
      mapReply (Builder.retitle name) (TextGrammar.keepText text s start) := by
  cases text with
  | none => exact s.mapUser_fail _ _
  | some text =>
    exact built_mapUser (Builder.retitle name) (fun b ↦ { b with scratch := text }) (fun _ ↦ rfl) s
      start

theorem keepRaw_equivariant : EquivariantReply (Builder.retitle name) TextGrammar.keepRaw :=
  fun _ s start ↦ keepText_mapUser name _ s start

theorem keepUnescaped_equivariant :
    EquivariantReply (Builder.retitle name) TextGrammar.keepUnescaped :=
  fun _ s start ↦ keepText_mapUser name _ s start

theorem setName_equivariant : EquivariantReply (Builder.retitle name) TextGrammar.setName := by
  intro input s start
  exact built_mapUser (Builder.retitle name)
    (fun b ↦ { b with pending := some b.scratch, scratch := "" }) (fun _ ↦ rfl) s start

theorem emitScalar_equivariant :
    EquivariantReply (Builder.retitle name) TextGrammar.emitScalar := by
  intro input s start
  simp only [TextGrammar.emitScalar, State.mapUser_resultsSince]
  split
  · exact built_mapUser _ _ (Builder.retitle_emit name _) s start
  · exact s.mapUser_fail _ _

theorem emitString_equivariant : EquivariantReply (Builder.retitle name) TextGrammar.emitString :=
  fun _ s start ↦ built_mapUser _ _
    (fun b ↦ congrArg (fun b' ↦ ({ b' with scratch := "" } : Builder))
      (Builder.retitle_emit name (.string b.scratch) b)) s start

theorem emitVector_equivariant :
    EquivariantReply (Builder.retitle name) TextGrammar.emitVector := by
  intro input s start
  show TextGrammar.emitVector (s.mapUser (Builder.retitle name)) start =
    mapReply (Builder.retitle name) (TextGrammar.emitVector s start)
  rw [TextGrammar.emitVector, TextGrammar.emitVector, State.mapUser_resultsSince]
  split
  · split
    · exact built_mapUser _ _ (Builder.retitle_emit name _) s start
    · exact s.mapUser_fail _ _
  · split
    · exact s.mapUser_fail _ _
    · exact s.mapUser_fail _ _

/-- What happens to the builder when a collection is entered and left happens to its root when it is
retitled as well. -/
theorem scope_equivariant (form : Form) :
    EquivariantAction (Builder.retitle name) (TextGrammar.scope form) := by
  intro input match? hmatch start s
  dsimp only
  rw [TextGrammar.scope, TextGrammar.scope, State.mapUser_peek]
  split
  · have hbody : match? (TextGrammar.bodyOf form)
        { s.mapUser (Builder.retitle name) with
          user := (s.mapUser (Builder.retitle name)).user.openBranch form } =
        (match? (TextGrammar.bodyOf form) { s with user := s.user.openBranch form }).map
          (mapReply (Builder.retitle name)) :=
      hmatch _ { s with user := s.user.openBranch form }
    simp only [Program.run, hbody]
    rcases match? (TextGrammar.bodyOf form) { s with user := s.user.openBranch form } with
      _ | ⟨_ | _ | _, s₁⟩
    · rfl
    · exact congrArg (fun b ↦ some (Outcome.ok, { s₁ with user := b }))
        (Builder.retitle_closeBranch name s₁.user)
    · exact congrArg (fun b ↦ some (Outcome.fail, { s₁ with user := b }))
        (Builder.retitle_discardBranch name s₁.user)
    · exact congrArg (fun b ↦ some (Outcome.noMatch, { s₁ with user := b }))
        (Builder.retitle_discardBranch name s₁.user)
  · exact congrArg some (s.mapUser_fail _ _)

end

/-! ## The rules of the grammar -/

section

open TextGrammar (TextRule grammar)

variable (name : Name)

/-- Every action within a rule lets the root be retitled. -/
def LetsRetitle (r : TextRule) : Prop := r.Every (EquivariantAction (Builder.retitle name))

theorem actions_equivariant : GrammarActions (EquivariantAction (Builder.retitle name)) where
  okWith value _ := EquivariantReply.toAction fun _ s _ ↦ s.mapUser_okWith _ value
  closeDecimal := closeDecimal_equivariant.toAction
  closeUnsigned radix := (closeUnsigned_equivariant radix).toAction
  closeSigned := closeSigned_equivariant.toAction
  delimiter := delimiter_equivariant.toAction
  rejectNumber := rejectNumber_equivariant.toAction
  keepRaw := (keepRaw_equivariant name).toAction
  keepUnescaped := (keepUnescaped_equivariant name).toAction
  emitScalar := (emitScalar_equivariant name).toAction
  emitString := (emitString_equivariant name).toAction
  emitVector := (emitVector_equivariant name).toAction
  setName := (setName_equivariant name).toAction
  documentEnd := documentEnd_equivariant.toAction
  skip := skip_equivariant.toAction
  quotedEnd := quotedEnd_equivariant.toAction
  blockBody := blockBody_equivariant.toAction
  collectionEnd form := (collectionEnd_equivariant form).toAction
  scope := scope_equivariant name

/-- **All actions of the grammar let the root be retitled.** -/
theorem grammar_letsRetitle (n : Symbol) : LetsRetitle name (grammar n) :=
  (actions_equivariant name).grammar n

end

end DocGrammar
