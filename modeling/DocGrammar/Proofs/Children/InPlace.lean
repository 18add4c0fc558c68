import DocGrammar.Proofs.Children.Room

/-!
# Misuse leaves a document as it is

An operation that is out of place answers with a misuse instead of a document.  Whoever works on a
document in place has only the one, and takes one step after the other: looks how much room there
is, asks for the children, drops some, asks memory for more room, and only then adds one.  A misuse
ends the work, and what was done before it stays done.  `Edit.perform` is what each edit is in this
form, with its steps in their order.

No step that changes something comes before one that may end the work.  So performing an edit comes
to the same as applying it, and after a misuse the document is what it was (`Edit.perform_eq`).
Which misuse there is, and when, is the main statement (`Edit.perform_misuse`): a document that is
no collection is refused by all edits but the one that has nothing to do, namely to reserve room for
no further children.
-/

set_option autoImplicit false

namespace DocGrammar

/-! ## Work in place -/

/-- Work on a document.  A misuse ends it, and the document stays as it is by then. -/
abbrev InPlace (β : Type) := ExceptT Misuse (StateM Doc) β

namespace InPlace

variable {β γ : Type}

/-- Does the work on a document. -/
def on (work : InPlace β) (d : Doc) : Except Misuse β × Doc := StateT.run (ExceptT.run work) d

/-- Asks for the children and does something to them. -/
def edit (operation : Collection Doc → Except Misuse (β × Collection Doc)) : InPlace β := do
  match (← get).edit operation with
  | .ok (result, changed) => do
    set changed
    return result
  | .error misuse => throw misuse

/-- Asks for the children and changes them. -/
def change (f : Collection Doc → Collection Doc) : InPlace Unit := edit fun c ↦ .ok ((), f c)

/-- Does the work if the document is such that it has to be done. -/
def onlyIf (condition : Doc → Prop) [DecidablePred condition] (work : InPlace Unit) :
    InPlace Unit := do
  if condition (← get) then work else return ()

/-- What comes next is done where the work before it has left the document. -/
theorem on_bind (work : InPlace β) (next : β → InPlace γ) (d : Doc) :
    (work >>= next).on d =
      match work.on d with
      | (.ok result, changed) => (next result).on changed
      | (.error misuse, changed) => (.error misuse, changed) := by
  simp only [on, ExceptT.run, StateT.run, bind, ExceptT.bind, ExceptT.mk, StateT.bind]
  rcases work d with ⟨misuse | result, changed⟩ <;> rfl

theorem on_get (next : Doc → InPlace β) (d : Doc) : (get >>= next).on d = (next d).on d := rfl

theorem on_onlyIf (condition : Doc → Prop) [DecidablePred condition] (work : InPlace Unit)
    (d : Doc) : (onlyIf condition work).on d = if condition d then work.on d else (.ok (), d) := by
  rw [onlyIf, on_get]
  split <;> rfl

/-- An answer with the document that there is afterwards: the one before, in case of a misuse. -/
def kept (d : Doc) : Except Misuse (β × Doc) → Except Misuse β × Doc
  | .ok (result, changed) => (.ok result, changed)
  | .error misuse => (.error misuse, d)

theorem on_edit (operation : Collection Doc → Except Misuse (β × Collection Doc)) (d : Doc) :
    (edit operation).on d = kept d (d.edit operation) := by
  rw [edit, on_get]
  rcases d.edit operation with misuse | answer <;> rfl

/-! ## Steps that may end the work -/

/-- Drops the children that are too many, and sets the room for the others.  If it is more than
before, memory is asked for it. -/
def setCapacity (n : Nat) : InPlace Unit := do
  change fun c ↦ { items := c.items.take n, space := c.capacity - min n c.items.length }
  onlyIf (fun d ↦ d.capacity < n ∧ ¬ n < Collection.limit) (throw (.tooLarge n))
  change fun c ↦ { c with space := n - c.items.length }

/-- Looks how much room there is, and makes it more. -/
def grow (least : Nat) : InPlace Unit := do
  setCapacity (max (2 * (← get).capacity + 8) least)

end InPlace

open InPlace

/-- Does an edit in place.  The sum in `reserve` is exact, as in `Doc.reserve`. -/
def Edit.perform : Edit → InPlace (Option Doc)
  | push child => do
    onlyIf (fun d ↦ d.space = 0) (InPlace.grow 0)
    change (·.append child)
    return none
  | pop => InPlace.edit fun c ↦ .ok c.pop
  | remove index => do
    let child ← InPlace.edit fun c ↦ Doc.orNoSuchIndex index c.size (c.remove? index)
    return some child
  | removeOver index => do
    let child ← InPlace.edit fun c ↦ Doc.orNoSuchIndex index c.size (c.removeOver? index)
    return some child
  | setCapacity n => do
    InPlace.setCapacity n
    return none
  | grow least => do
    InPlace.grow least
    return none
  | reserve additional => do
    let needed := (← get).size + additional
    onlyIf (fun d ↦ d.capacity < needed) (InPlace.grow needed)
    return none
  | resize n => do
    onlyIf (fun d ↦ d.capacity < n) (InPlace.grow n)
    change (·.fill n {})
    return none
  | shrinkToFit => do
    change (·.shrinkToFit)
    return none

namespace InPlace

/-! ## Collections in place -/

section

variable (name : Name) (form : Form) (c : Collection Doc)

theorem on_change (f : Collection Doc → Collection Doc) :
    (change f).on ⟨name, .collection form c⟩ = (.ok (), ⟨name, .collection form (f c)⟩) := by
  rw [change, on_edit, Doc.edit_collection]
  rfl

/-- Children are dropped only if there is enough room, and memory is asked only if there is not. -/
theorem on_setCapacity (hlimit : c.capacity < Collection.limit) (n : Nat) :
    (setCapacity n).on ⟨name, .collection form c⟩ =
      kept ⟨name, .collection form c⟩ ((Doc.withinLimit (c.setCapacity n)).map
        fun c ↦ ((), ⟨name, .collection form c⟩)) := by
  have hsize : c.items.length ≤ c.capacity := c.length_le_capacity
  have hcapacity : (c.setCapacity n).capacity = n := c.setCapacity_capacity n
  have htruncated : Doc.capacity ⟨name, .collection form
      ⟨c.items.take n, c.capacity - min n c.items.length⟩⟩ = c.capacity := by
    simp only [Doc.capacity_collection, Collection.capacity, List.length_take]
    omega
  simp only [setCapacity, on_bind, on_change, on_onlyIf, htruncated]
  by_cases hn : n < Collection.limit
  · rw [if_neg (fun h ↦ h.2 hn), Doc.withinLimit_ok (hcapacity.symm ▸ hn)]
    simp only [on_change, List.length_take]
    have hspace : n - min n c.items.length = n - c.items.length := by omega
    rw [hspace]
    rfl
  · have hlarger : c.capacity < n := by omega
    rw [if_pos ⟨hlarger, hn⟩, Doc.withinLimit_error (hcapacity.symm ▸ hn), hcapacity]
    have hall : c.items.take n = c.items := List.take_of_length_le (by omega)
    have hspace : c.capacity - min n c.items.length = c.space := by
      simp only [Collection.capacity] at hlarger ⊢
      omega
    rw [hall, hspace]
    rfl

theorem on_grow (hlimit : c.capacity < Collection.limit) (least : Nat) :
    (grow least).on ⟨name, .collection form c⟩ =
      kept ⟨name, .collection form c⟩ ((Doc.withinLimit (c.grow least)).map
        fun c ↦ ((), ⟨name, .collection form c⟩)) :=
  on_setCapacity name form c hlimit _

/-- Room is made if there is not enough. -/
theorem on_onlyIf_grow (hlimit : c.capacity < Collection.limit) (condition : Doc → Prop)
    [DecidablePred condition] (least : Nat) {room : Collection Doc}
    (hroom : room = if condition ⟨name, .collection form c⟩ then c.grow least else c) :
    (onlyIf condition (grow least)).on ⟨name, .collection form c⟩ =
      kept ⟨name, .collection form c⟩ ((Doc.withinLimit room).map
        fun c ↦ ((), ⟨name, .collection form c⟩)) := by
  rw [on_onlyIf, hroom]
  split
  · exact on_grow name form c hlimit least
  · rw [Doc.withinLimit_ok hlimit]
    rfl

/-- Room is made first, and then the rest is done, to a collection that has enough of it. -/
theorem on_withRoom (hlimit : c.capacity < Collection.limit) (condition : Doc → Prop)
    [DecidablePred condition] (least : Nat) {room : Collection Doc}
    (hroom : room = if condition ⟨name, .collection form c⟩ then c.grow least else c)
    (finish : Collection Doc → Collection Doc) :
    (do onlyIf condition (grow least); change finish; return none : InPlace (Option Doc)).on
        ⟨name, .collection form c⟩ =
      kept ⟨name, .collection form c⟩ ((Doc.withinLimit room).map
        fun c ↦ (none, ⟨name, .collection form (finish c)⟩)) := by
  rw [on_bind, on_onlyIf_grow name form c hlimit condition least hroom]
  rcases Doc.withinLimit room with misuse | room
  · rfl
  · show (change finish >>= _).on ⟨name, .collection form room⟩ = _
    rw [on_bind, on_change]
    rfl

end

end InPlace

namespace Edit

/-- Reserving looks first whether there is anything to be done. -/
theorem perform_reserve (additional : Nat) (d : Doc) :
    (reserve additional).perform.on d =
      if d.capacity < d.size + additional then
        (do InPlace.grow (d.size + additional); return none : InPlace (Option Doc)).on d
      else (.ok none, d) := by
  rw [perform, on_get, on_bind, on_onlyIf]
  by_cases hroom : d.capacity < d.size + additional
  · rw [if_pos hroom, if_pos hroom, on_bind]
  · rw [if_neg hroom, if_neg hroom]
    rfl

theorem perform_collection (name : Name) (form : Form) (c : Collection Doc)
    (hlimit : c.capacity < Collection.limit) (e : Edit) :
    e.perform.on ⟨name, .collection form c⟩ =
      kept ⟨name, .collection form c⟩ (e.apply ⟨name, .collection form c⟩) := by
  cases e with
  | push child =>
    have hpush := on_withRoom name form c hlimit (fun d ↦ d.space = 0) 0 rfl (·.append child)
    rw [perform, hpush, apply, Doc.push, Doc.update_collection]
    show kept _ (Except.map _ (Doc.withinLimit c.ensureSpace)) = _
    rcases Doc.withinLimit c.ensureSpace with misuse | room <;> rfl
  | pop => exact on_edit _ _
  | remove index =>
    rw [perform, on_bind, on_edit, apply, Doc.remove]
    rcases Doc.edit _ _ with misuse | answer <;> rfl
  | removeOver index =>
    rw [perform, on_bind, on_edit, apply, Doc.removeOver]
    rcases Doc.edit _ _ with misuse | answer <;> rfl
  | setCapacity n =>
    rw [perform, on_bind, on_setCapacity name form c hlimit, apply, Doc.setCapacity,
      Doc.update_collection]
    rcases Doc.withinLimit (c.setCapacity n) with misuse | room <;> rfl
  | grow least =>
    rw [perform, on_bind, on_grow name form c hlimit, apply, Doc.grow,
      Doc.update_collection]
    rcases Doc.withinLimit (c.grow least) with misuse | room <;> rfl
  | reserve additional =>
    rw [perform_reserve, apply, Doc.reserve, Doc.update_collection]
    split
    · next hroom =>
      have hgrown : c.reserve additional = c.grow (c.items.length + additional) := if_pos hroom
      rw [on_bind, on_grow name form c hlimit, Doc.size_collection, hgrown]
      rcases Doc.withinLimit (c.grow (c.items.length + additional)) with misuse | room <;> rfl
    · rfl
  | resize n =>
    have hresize := on_withRoom name form c hlimit (fun d ↦ d.capacity < n) n rfl (·.fill n {})
    rw [perform, hresize, apply, Doc.resize, Doc.update_collection]
    show kept _ (Except.map _ (Doc.withinLimit (c.ensure n))) = _
    rcases Doc.withinLimit (c.ensure n) with misuse | room <;> rfl
  | shrinkToFit =>
    rw [perform, on_bind, on_change]
    rfl

end Edit

/-! ## Other documents -/

section

variable {d : Doc} (hd : d.tag.isCollection = false)

include hd

namespace Doc

theorem edit_of_not {β : Type}
    (operation : Collection Doc → Except Misuse (β × Collection Doc)) :
    d.edit operation = .error (.notCollection d.tag) := by
  obtain ⟨name, content⟩ := d
  cases content with
  | collection form c => cases form <;> cases hd
  | _ => rfl

theorem update_of_not (operation : Collection Doc → Except Misuse (Collection Doc)) :
    d.update operation = .error (.notCollection d.tag) := by
  rw [update, edit_of_not hd]
  rfl

/-- Where there are no children there is no room for any. -/
theorem capacity_of_not : d.size = 0 ∧ d.space = 0 ∧ d.capacity = 0 := by
  obtain ⟨name, content⟩ := d
  cases content with
  | collection form c => cases form <;> cases hd
  | _ => exact ⟨rfl, rfl, rfl⟩

/-- Nothing has to be done to reserve room for no further children, so it is never refused. -/
theorem reserve_zero_of_not : d.reserve 0 = .ok d := by
  obtain ⟨hsize, -, hcapacity⟩ := capacity_of_not hd
  rw [reserve, hsize, hcapacity]
  rfl

end Doc

namespace InPlace

/-- Work that begins with asking for the children is refused. -/
theorem on_edit_of_not {β γ : Type}
    (operation : Collection Doc → Except Misuse (β × Collection Doc)) (next : β → InPlace γ) :
    (edit operation >>= next).on d = (.error (.notCollection d.tag), d) := by
  rw [on_bind, on_edit, Doc.edit_of_not hd]
  rfl

theorem on_setCapacity_of_not (n : Nat) :
    (setCapacity n).on d = (.error (.notCollection d.tag), d) :=
  on_edit_of_not hd _ _

theorem on_grow_of_not (least : Nat) : (grow least).on d = (.error (.notCollection d.tag), d) :=
  on_setCapacity_of_not hd _

end InPlace

namespace Edit

theorem apply_of_not {e : Edit} (he : e ≠ .reserve 0) :
    e.apply d = .error (.notCollection d.tag) := by
  obtain ⟨hsize, -, hcapacity⟩ := Doc.capacity_of_not hd
  cases e with
  | push child => rw [apply, Doc.push, Doc.update_of_not hd]; rfl
  | pop => exact Doc.edit_of_not hd _
  | remove index => rw [apply, Doc.remove, Doc.edit_of_not hd]; rfl
  | removeOver index => rw [apply, Doc.removeOver, Doc.edit_of_not hd]; rfl
  | setCapacity n => rw [apply, Doc.setCapacity, Doc.update_of_not hd]; rfl
  | grow least => rw [apply, Doc.grow, Doc.update_of_not hd]; rfl
  | reserve additional =>
    have hpos : 0 < additional := Nat.pos_of_ne_zero fun h ↦ he (h ▸ rfl)
    rw [apply, Doc.reserve, hsize, hcapacity, Nat.zero_add, if_pos hpos, Doc.update_of_not hd]
    rfl
  | resize n => rw [apply, Doc.resize, Doc.update_of_not hd]; rfl
  | shrinkToFit => rw [apply, Doc.shrinkToFit, Doc.update_of_not hd]; rfl

/-- The edits come to asking for the children by different ways. -/
theorem perform_of_not {e : Edit} (he : e ≠ .reserve 0) :
    e.perform.on d = (.error (.notCollection d.tag), d) := by
  obtain ⟨hsize, hspace, hcapacity⟩ := Doc.capacity_of_not hd
  cases e with
  | push child =>
    rw [perform, on_bind, on_onlyIf, if_pos hspace, on_grow_of_not hd]
  | pop =>
    rw [perform, on_edit, Doc.edit_of_not hd]
    rfl
  | remove index => exact on_edit_of_not hd _ _
  | removeOver index => exact on_edit_of_not hd _ _
  | setCapacity n => rw [perform, on_bind, on_setCapacity_of_not hd]
  | grow least => rw [perform, on_bind, on_grow_of_not hd]
  | reserve additional =>
    have hpos : d.capacity < d.size + additional := by
      have hne : additional ≠ 0 := fun h ↦ he (h ▸ rfl)
      omega
    rw [perform_reserve, if_pos hpos, on_bind, on_grow_of_not hd]
  | resize n =>
    rw [perform, on_bind, on_onlyIf]
    by_cases hn : d.capacity < n
    · rw [if_pos hn, on_grow_of_not hd]
    · rw [if_neg hn]
      exact on_edit_of_not hd _ _
  | shrinkToFit => exact on_edit_of_not hd _ _

end Edit
end

/-! ## Which misuse there is -/

theorem Doc.withinLimit_tooLarge {c : Collection Doc} {n : Nat} (hc : c.capacity = n)
    (hn : ¬ n < Collection.limit) : withinLimit c = .error (.tooLarge n) := by
  rw [withinLimit_error (hc.symm ▸ hn), hc]

namespace Edit

/-- **Performing an edit comes to the same as applying it**, and a misuse leaves the document as it
is. -/
theorem perform_eq {d : Doc} (hlimit : d.capacity < Collection.limit) (e : Edit) :
    e.perform.on d = kept d (e.apply d) := by
  cases hd : d.tag.isCollection with
  | true =>
    obtain ⟨name, form, c, rfl⟩ := Doc.exists_collection hd
    exact perform_collection name form c hlimit e
  | false =>
    by_cases he : e = .reserve 0
    · obtain ⟨hsize, -, hcapacity⟩ := Doc.capacity_of_not hd
      rw [he, perform_reserve, if_neg (by omega), apply, Doc.reserve_zero_of_not hd]
      rfl
    · rw [perform_of_not hd he, apply_of_not hd he]
      rfl

section

variable (name : Name) (form : Form) (c : Collection Doc)

/-- There is no child at an index that is too large. -/
theorem apply_noSuchIndex {e : Edit} {index : Nat}
    (he : e = .remove index ∨ e = .removeOver index) (hindex : c.items.length ≤ index) :
    e.apply ⟨name, .collection form c⟩ = .error (.noSuchIndex index c.items.length) := by
  rcases he with rfl | rfl
  · rw [apply, Doc.remove, Doc.edit_collection, c.remove?_eq_none index (Nat.not_lt.2 hindex)]
    rfl
  · rw [apply, Doc.removeOver, Doc.edit_collection,
      c.removeOver?_eq_none index (Nat.not_lt.2 hindex)]
    rfl

/-- An edit that asks memory for more room than it could have is told so. -/
theorem apply_tooLarge (hlimit : c.capacity < Collection.limit) {e : Edit} {n : Nat}
    (hn : e.capacityAfter c.items.length c.capacity = n) (hlarge : ¬ n < Collection.limit) :
    e.apply ⟨name, .collection form c⟩ = .error (.tooLarge n) := by
  cases e with
  | push child =>
    rw [apply, Doc.push, Doc.update_collection,
      Doc.withinLimit_tooLarge (c.ensureSpace_capacity.trans hn) hlarge]
    rfl
  | setCapacity k =>
    rw [apply, Doc.setCapacity, Doc.update_collection,
      Doc.withinLimit_tooLarge ((c.setCapacity_capacity k).trans hn) hlarge]
    rfl
  | grow least =>
    rw [apply, Doc.grow, Doc.update_collection,
      Doc.withinLimit_tooLarge ((c.grow_capacity least).trans hn) hlarge]
    rfl
  | resize k =>
    rw [apply, Doc.resize, Doc.update_collection,
      Doc.withinLimit_tooLarge ((c.ensure_capacity k).trans hn) hlarge]
    rfl
  | reserve additional =>
    have hneeded : c.capacity < c.items.length + additional := by
      by_contra henough
      rw [capacityAfter, if_pos (Nat.not_lt.1 henough)] at hn
      exact hlarge (hn ▸ hlimit)
    have hroom : (c.reserve additional).capacity = n := (c.ensure_capacity _).trans hn
    rw [apply, Doc.reserve, Doc.capacity_collection, Doc.size_collection, if_pos hneeded,
      Doc.update_collection, Doc.withinLimit_tooLarge hroom hlarge]
    rfl
  | shrinkToFit => exact absurd (hn ▸ Nat.lt_of_le_of_lt c.length_le_capacity hlimit) hlarge
  | pop => exact absurd (hn ▸ hlimit) hlarge
  | remove index => exact absurd (hn ▸ hlimit) hlarge
  | removeOver index => exact absurd (hn ▸ hlimit) hlarge

/-- All other edits are done. -/
theorem apply_done (hlimit : c.capacity < Collection.limit) {e : Edit}
    (hpossible : e.IsPossible c.items.length c.capacity) :
    ∃ taken d', e.apply ⟨name, .collection form c⟩ = .ok (taken, d') := by
  have hanswer := apply_answers name form c hlimit e
  generalize e.apply ⟨name, .collection form c⟩ = answer at hanswer
  cases hanswer with
  | done => exact ⟨_, _, rfl⟩
  | misuse himpossible => exact absurd hpossible himpossible

end

/-- **Which edits are a misuse, and that none of them leaves a trace.**  Performed in place, an edit
comes to the same as applied, and after a misuse the document is what it was.  A document that is no
collection is refused, unless all that is asked for is room for no further children; then nothing is
done.  A collection refuses to take out a child that it does not have, and all that would need more
room than memory could have; anything else is done. -/
theorem perform_misuse (d : Doc) (hlimit : d.capacity < Collection.limit) (e : Edit) :
    e.perform.on d = kept d (e.apply d) ∧
      (∀ misuse d', e.perform.on d = (.error misuse, d') → d' = d) ∧
      (d.tag.isCollection = false → e ≠ .reserve 0 →
        e.perform.on d = (.error (.notCollection d.tag), d)) ∧
      (d.tag.isCollection = false → e = .reserve 0 → e.perform.on d = (.ok none, d)) ∧
      (d.tag.isCollection = true → ∀ index, e = .remove index ∨ e = .removeOver index →
        d.size ≤ index → e.perform.on d = (.error (.noSuchIndex index d.size), d)) ∧
      (d.tag.isCollection = true → e.IsInRange d.size →
        if e.capacityAfter d.size d.capacity < Collection.limit then
          ∃ taken d', e.perform.on d = (.ok taken, d')
        else e.perform.on d =
          (.error (.tooLarge (e.capacityAfter d.size d.capacity)), d)) := by
  have hperform := perform_eq hlimit e
  refine ⟨hperform, fun misuse d' h ↦ ?_, fun hd he ↦ perform_of_not hd he, fun hd he ↦ ?_,
    fun hd index he hindex ↦ ?_, fun hd hrange ↦ ?_⟩
  · rw [hperform] at h
    cases happly : e.apply d with
    | ok answer => simp [happly, kept] at h
    | error misuse => simpa [happly, kept, eq_comm] using congrArg Prod.snd h
  · rw [hperform, he, apply, Doc.reserve_zero_of_not hd]
    rfl
  · obtain ⟨name, form, c, rfl⟩ := Doc.exists_collection hd
    rw [hperform, apply_noSuchIndex name form c he hindex]
    rfl
  · obtain ⟨name, form, c, rfl⟩ := Doc.exists_collection hd
    split
    · next hroom =>
      obtain ⟨taken, d', happly⟩ := apply_done name form c hlimit ⟨hrange, hroom⟩
      exact ⟨taken, d', by rw [hperform, happly]; rfl⟩
    · next hroom =>
      rw [hperform, apply_tooLarge name form c hlimit rfl hroom]
      rfl

/-- A number has nothing to push a child to, and an array of two no third child to take out. -/
theorem perform_misuse_seven :
    (Edit.perform (.push {})).on { content := .integer 7 } =
        (.error (.notCollection .integer), { content := .integer 7 }) ∧
      (Edit.perform (.removeOver 2)).on { content := .collection .array ⟨[{}, {}], 3⟩ } =
        (.error (.noSuchIndex 2 2), { content := .collection .array ⟨[{}, {}], 3⟩ }) := by
  obtain ⟨-, -, hrefused, -⟩ := perform_misuse { content := .integer 7 } (by decide) (.push {})
  obtain ⟨-, -, -, -, hindex, -⟩ := perform_misuse
    { content := .collection .array ⟨[{}, {}], 3⟩ } (by decide) (.removeOver 2)
  exact ⟨hrefused rfl nofun, hindex rfl 2 (.inr rfl) (Nat.le_refl 2)⟩

/-- Not every edit of a document that is no collection is refused. -/
theorem reserve_not_refused : ¬ ∀ (d : Doc) (e : Edit), d.tag.isCollection = false →
    ∃ misuse, e.perform.on d = (.error misuse, d) := by
  intro h
  obtain ⟨misuse, hrefused⟩ := h { content := .integer 7 } (.reserve 0) rfl
  have hdone : (Edit.perform (.reserve 0)).on { content := .integer 7 } =
      (.ok none, { content := .integer 7 }) := rfl
  rw [hdone] at hrefused
  cases hrefused

end Edit
end DocGrammar
