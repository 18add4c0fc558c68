import DocGrammar.Doc.Children
import DocGrammar.Proofs.Children.Collections
import Mathlib.Order.Bounds.Defs
import Mathlib.Order.Monotone.Basic

/-!
# The children of a document are a plain list

Whatever is done to the children of a document, they are those of a plain list to which the same was
done, and how much room there is follows from the sizes and the capacities alone.

* `Edit` is what can be done to the children, and `Edit.onList` the same for a plain list, which
  knows nothing of room.
* `Edit.capacityAfter` is the capacity that an edit leaves.  What does not have to enlarge the
  collection leaves the capacity alone, and what has to makes it `Collection.enlarged`.
* A `Plain` collection is a list with a number beside it.  `Doc.editAll_plain` says that a sequence
  of edits comes to the same on a document: an edit fails if it is about a child that does not
  exist, or if memory could not hold the capacity that it asks for, and for no other reason.

From there on it is all about plain lists: children that there is room for are pushed without the
capacity changing (`Plain.run_pushes_within`), and a collection that was built by pushing has the
least capacity of a series (`Plain.run_pushes_grown`).
-/

set_option autoImplicit false

namespace DocGrammar

/-! ## Edits -/

/-- Something that can be done to the children of a document. -/
inductive Edit where
  | push (child : Doc)
  | pop
  | remove (index : Nat)
  | removeOver (index : Nat)
  | setCapacity (n : Nat)
  | grow (least : Nat)
  | reserve (additional : Nat)
  | resize (n : Nat)
  | shrinkToFit

namespace Edit

/-- Does it to a document.  The answer includes the child that was taken out, if one was. -/
def apply : Edit → Doc → Except Misuse (Option Doc × Doc)
  | push child, d => (d.push child).map (none, ·)
  | pop, d => d.pop
  | remove index, d => (d.remove index).map (Prod.map some id)
  | removeOver index, d => (d.removeOver index).map (Prod.map some id)
  | setCapacity n, d => (d.setCapacity n).map (none, ·)
  | grow least, d => (d.grow least).map (none, ·)
  | reserve additional, d => (d.reserve additional).map (none, ·)
  | resize n, d => (d.resize n).map (none, ·)
  | shrinkToFit, d => d.shrinkToFit.map (none, ·)

/-- What becomes of a plain list. -/
def onList : Edit → List Doc → List Doc
  | push child, items => items ++ [child]
  | pop, items => items.dropLast
  | remove index, items => items.eraseIdx index
  | removeOver index, items => Collection.lastMovedTo index items
  | setCapacity n, items => items.take n
  | resize n, items => items.take n ++ List.replicate (n - items.length) {}
  | grow _, items | reserve _, items | shrinkToFit, items => items

/-- What is taken out of a plain list. -/
def taken : Edit → List Doc → Option Doc
  | pop, items => items.getLast?
  | remove index, items | removeOver index, items => items[index]?
  | _, _ => none

/-- Whether the child that an edit is about exists. -/
def IsInRange (size : Nat) : Edit → Prop
  | remove index | removeOver index => index < size
  | _ => True

instance (size : Nat) : (e : Edit) → Decidable (e.IsInRange size)
  | remove index | removeOver index => Nat.decLt index size
  | push _ | pop | setCapacity _ | grow _ | reserve _ | resize _ | shrinkToFit =>
    .isTrue trivial

/-- The capacity that an edit leaves.  The sum in `reserve` is exact.  If no machine word holds it,
it does not wrap round, and the edit is not possible. -/
def capacityAfter (size capacity : Nat) : Edit → Nat
  | push _ => if size < capacity then capacity else Collection.enlarged capacity 0
  | setCapacity n => n
  | grow least => Collection.enlarged capacity least
  | reserve additional =>
    if size + additional ≤ capacity then capacity
    else Collection.enlarged capacity (size + additional)
  | resize n => if n ≤ capacity then capacity else Collection.enlarged capacity n
  | shrinkToFit => size
  | pop | remove _ | removeOver _ => capacity

/-- An edit is possible if the child it is about exists and memory could hold the capacity. -/
def IsPossible (size capacity : Nat) (e : Edit) : Prop :=
  e.IsInRange size ∧ e.capacityAfter size capacity < Collection.limit

instance (size capacity : Nat) (e : Edit) : Decidable (e.IsPossible size capacity) :=
  inferInstanceAs (Decidable (_ ∧ _))

end Edit

/-! ## Plain collections -/

/-- A list of documents with a capacity. -/
structure Plain where
  items : List Doc
  capacity : Nat

namespace Plain

/-- Does something to a plain collection.  The answer is as for documents. -/
def step (p : Plain) (e : Edit) : Option (Option Doc × Plain) :=
  if e.IsPossible p.items.length p.capacity then
    some (e.taken p.items, ⟨e.onList p.items, e.capacityAfter p.items.length p.capacity⟩)
  else none

/-- Does one thing after the other.  The answer includes what each of them took out. -/
def run : List Edit → Plain → Option (List (Option Doc) × Plain)
  | [], p => some ([], p)
  | e :: rest, p =>
    (p.step e).bind fun answer ↦ (run rest answer.2).map (Prod.map (answer.1 :: ·) id)

end Plain

namespace Doc

/-- The children of a document and its capacity. -/
def plain (d : Doc) : Plain := ⟨d.children, d.capacity⟩

/-- Does one thing after the other to the children of a document. -/
def editAll : List Edit → Doc → Except Misuse (List (Option Doc) × Doc)
  | [], d => .ok ([], d)
  | e :: rest, d =>
    (e.apply d).bind fun answer ↦ (editAll rest answer.2).map (Prod.map (answer.1 :: ·) id)

/-! ## One edit of a document -/

theorem withinLimit_ok {c : Collection Doc} (h : c.capacity < Collection.limit) :
    withinLimit c = .ok c :=
  if_pos (decide_eq_true h)

theorem withinLimit_error {c : Collection Doc} (h : ¬ c.capacity < Collection.limit) :
    withinLimit c = .error (.tooLarge c.capacity) :=
  if_neg (by simpa [Collection.isWithinLimit] using h)

section

variable (name : Name) (form : Form) (c : Collection Doc)

theorem capacity_collection : capacity ⟨name, .collection form c⟩ = c.capacity := rfl

theorem size_collection : size ⟨name, .collection form c⟩ = c.items.length := rfl

theorem plain_collection : plain ⟨name, .collection form c⟩ = ⟨c.items, c.capacity⟩ := rfl

theorem edit_collection {β : Type}
    (operation : Collection Doc → Except Misuse (β × Collection Doc)) :
    edit ⟨name, .collection form c⟩ operation =
      (operation c).map (Prod.map id (⟨name, .collection form ·⟩)) :=
  rfl

theorem update_collection (operation : Collection Doc → Except Misuse (Collection Doc)) :
    update ⟨name, .collection form c⟩ operation =
      (operation c).map (⟨name, .collection form ·⟩) := by
  rw [update, edit_collection]
  cases operation c <;> rfl

end

end Doc

namespace Edit

/-- What the answer of an edit is, for a collection that memory can hold. -/
inductive Answers (name : Name) (form : Form) (c : Collection Doc) (e : Edit) :
    Except Misuse (Option Doc × Doc) → Prop
  | done {c' : Collection Doc} (hpossible : e.IsPossible c.items.length c.capacity)
      (hitems : c'.items = e.onList c.items)
      (hcapacity : c'.capacity = e.capacityAfter c.items.length c.capacity) :
      Answers name form c e (.ok (e.taken c.items, ⟨name, .collection form c'⟩))
  | misuse {misuse : Misuse} (himpossible : ¬ e.IsPossible c.items.length c.capacity) :
      Answers name form c e (.error misuse)

section

variable (name : Name) (form : Form) (c : Collection Doc)

/-- An edit that asks memory for room, and does the rest once it has it. -/
theorem answers_withinLimit {e : Edit} (room : Collection Doc)
    (finish : Collection Doc → Collection Doc) (hrange : e.IsInRange c.items.length)
    (hroom : room.capacity = e.capacityAfter c.items.length c.capacity)
    (hitems : (finish room).items = e.onList c.items)
    (hcapacity : (finish room).capacity = room.capacity)
    (happly : e.apply ⟨name, .collection form c⟩ = (Doc.withinLimit room).map fun room ↦
      (e.taken c.items, ⟨name, .collection form (finish room)⟩)) :
    Answers name form c e (e.apply ⟨name, .collection form c⟩) := by
  rw [happly]
  by_cases hlimit : room.capacity < Collection.limit
  · rw [Doc.withinLimit_ok hlimit]
    exact .done ⟨hrange, hroom ▸ hlimit⟩ hitems (hcapacity.trans hroom)
  · rw [Doc.withinLimit_error hlimit]
    exact .misuse fun hpossible ↦ hlimit (hroom ▸ hpossible.2)

/-- An edit that asks for no more room than there is. -/
theorem answers_done {e : Edit} (c' : Collection Doc) (hlimit : c.capacity < Collection.limit)
    (hrange : e.IsInRange c.items.length) (hitems : c'.items = e.onList c.items)
    (hcapacity : c'.capacity = e.capacityAfter c.items.length c.capacity)
    (hle : c'.capacity ≤ c.capacity)
    (happly : e.apply ⟨name, .collection form c⟩ =
      .ok (e.taken c.items, ⟨name, .collection form c'⟩)) :
    Answers name form c e (e.apply ⟨name, .collection form c⟩) := by
  rw [happly]
  exact .done ⟨hrange, hcapacity ▸ Nat.lt_of_le_of_lt hle hlimit⟩ hitems hcapacity

theorem push_answers (child : Doc) :
    Answers name form c (push child) ((push child).apply ⟨name, .collection form c⟩) := by
  refine answers_withinLimit name form c c.ensureSpace (·.append child) trivial
    c.ensureSpace_capacity ?_ ?_ ?_
  · rw [Collection.append_items, Collection.ensureSpace_items, onList]
  · refine Collection.append_capacity _ _ ?_
    rw [Collection.ensureSpace_items]
    exact c.length_lt_ensureSpace_capacity
  · rw [apply, Doc.push, Doc.update_collection]
    cases Doc.withinLimit c.ensureSpace <;> rfl

theorem resize_answers (n : Nat) :
    Answers name form c (resize n) ((resize n).apply ⟨name, .collection form c⟩) := by
  refine answers_withinLimit name form c (c.ensure n) (·.fill n {}) trivial
    (c.ensure_capacity n) ?_ ?_ ?_
  · rw [Collection.fill_items, Collection.ensure_items, onList]
  · exact Collection.fill_capacity _ n {} (c.le_ensure_capacity n)
  · rw [apply, Doc.resize, Doc.update_collection]
    cases Doc.withinLimit (c.ensure n) <;> rfl

/-- Reserving asks for room only if there is not enough. -/
theorem reserve_answers (hlimit : c.capacity < Collection.limit) (additional : Nat) :
    Answers name form c (reserve additional)
      ((reserve additional).apply ⟨name, .collection form c⟩) := by
  by_cases henough : c.items.length + additional ≤ c.capacity
  · refine answers_done name form c c hlimit trivial rfl (if_pos henough).symm
      (Nat.le_refl _) ?_
    rw [apply, Doc.reserve, Doc.capacity_collection, Doc.size_collection,
      if_neg (Nat.not_lt.2 henough)]
    rfl
  · refine answers_withinLimit name form c (c.reserve additional) id trivial
      (c.ensure_capacity _) (c.ensure_items _) rfl ?_
    rw [apply, Doc.reserve, Doc.capacity_collection, Doc.size_collection,
      if_pos (Nat.not_le.1 henough), Doc.update_collection]
    cases Doc.withinLimit (c.reserve additional) <;> rfl

/-- An edit that takes out the child at an index, if there is one. -/
theorem answers_takenOut {e : Edit} (taken? : Option (Doc × Collection Doc)) (index : Nat)
    (hlimit : c.capacity < Collection.limit)
    (hrange : e.IsInRange c.items.length ↔ index < c.items.length)
    (htaken : e.taken c.items = c.items[index]?)
    (hsame : e.capacityAfter c.items.length c.capacity = c.capacity)
    (hsome : ∀ h : index < c.items.length, ∃ c', taken? = some (c.items[index], c') ∧
      c'.items = e.onList c.items ∧ c'.capacity = c.capacity)
    (hnone : ¬ index < c.items.length → taken? = none)
    (happly : e.apply ⟨name, .collection form c⟩ =
      ((Doc.orNoSuchIndex index c.size taken?).map
        (Prod.map id (⟨name, .collection form ·⟩))).map (Prod.map some id)) :
    Answers name form c e (e.apply ⟨name, .collection form c⟩) := by
  by_cases h : index < c.items.length
  · obtain ⟨c', hout, hitems, hcapacity⟩ := hsome h
    refine answers_done name form c c' hlimit (hrange.2 h) hitems (hcapacity.trans hsame.symm)
      (Nat.le_of_eq hcapacity) ?_
    rw [happly, hout, htaken, List.getElem?_eq_getElem h]
    rfl
  · rw [happly, hnone h]
    exact .misuse fun hpossible ↦ h (hrange.1 hpossible.1)

theorem apply_answers (hlimit : c.capacity < Collection.limit) (e : Edit) :
    Answers name form c e (e.apply ⟨name, .collection form c⟩) := by
  cases e with
  | push child => exact push_answers name form c child
  | pop =>
    refine answers_done name form c c.pop.2 hlimit trivial c.pop_items c.pop_capacity
      (Nat.le_of_eq c.pop_capacity) ?_
    rw [apply, Doc.pop, Doc.edit_collection, taken, ← c.pop_fst]
    rfl
  | remove index =>
    exact answers_takenOut name form c (c.remove? index) index hlimit Iff.rfl rfl rfl
      (c.remove?_eq_some index) (c.remove?_eq_none index) rfl
  | removeOver index =>
    exact answers_takenOut name form c (c.removeOver? index) index hlimit Iff.rfl rfl rfl
      (c.removeOver?_eq_some index) (c.removeOver?_eq_none index) rfl
  | setCapacity n =>
    refine answers_withinLimit name form c (c.setCapacity n) id trivial
      (c.setCapacity_capacity n) (c.setCapacity_items n) rfl ?_
    rw [apply, Doc.setCapacity, Doc.update_collection]
    cases Doc.withinLimit (c.setCapacity n) <;> rfl
  | grow least =>
    refine answers_withinLimit name form c (c.grow least) id trivial
      (c.grow_capacity least) (c.grow_items least) rfl ?_
    rw [apply, Doc.grow, Doc.update_collection]
    cases Doc.withinLimit (c.grow least) <;> rfl
  | reserve additional => exact reserve_answers name form c hlimit additional
  | resize n => exact resize_answers name form c n
  | shrinkToFit =>
    refine answers_done name form c c.shrinkToFit hlimit trivial rfl
      c.shrinkToFit_capacity ?_ ?_
    · rw [c.shrinkToFit_capacity]
      exact c.length_le_capacity
    · rw [apply, Doc.shrinkToFit, Doc.update_collection]
      rfl

end

end Edit

/-! ## One edit after the other -/

namespace Doc

theorem exists_collection {d : Doc} (h : d.tag.isCollection = true) :
    ∃ name form c, d = ⟨name, .collection form c⟩ := by
  obtain ⟨name, content⟩ := d
  cases content with
  | collection form c => exact ⟨name, form, c, rfl⟩
  | vector v =>
    simp only [tag, Content.tag, Vec.tag] at h
    split at h <;> cases h
  | _ => cases h

/-- An edit of a document is an edit of a plain collection, and leaves the rest of the document
alone. -/
theorem apply_plain {d : Doc} (hd : d.tag.isCollection = true)
    (hlimit : d.capacity < Collection.limit) (e : Edit) :
    (e.apply d).toOption.map (Prod.map id plain) = d.plain.step e ∧
      ∀ taken d', e.apply d = .ok (taken, d') → d'.name = d.name ∧ d'.tag = d.tag := by
  obtain ⟨name, form, c, rfl⟩ := exists_collection hd
  have hanswer := Edit.apply_answers name form c hlimit e
  revert hanswer
  generalize e.apply ⟨name, .collection form c⟩ = answer
  intro hanswer
  cases hanswer with
  | done hpossible hitems hcapacity =>
    refine ⟨?_, ?_⟩
    · rw [plain_collection, Plain.step, if_pos hpossible, ← hitems, ← hcapacity]
      rfl
    · rintro taken d' ⟨⟩
      exact ⟨rfl, rfl⟩
  | misuse himpossible =>
    refine ⟨?_, fun taken d' h ↦ by cases h⟩
    rw [plain_collection, Plain.step, if_neg himpossible]
    rfl

end Doc

namespace Plain

theorem step_eq_some {p q : Plain} {e : Edit} {taken : Option Doc}
    (h : p.step e = some (taken, q)) :
    e.IsPossible p.items.length p.capacity ∧ q.items = e.onList p.items ∧
      q.capacity = e.capacityAfter p.items.length p.capacity := by
  rw [step] at h
  split at h
  · next hpossible =>
    cases h
    exact ⟨hpossible, rfl, rfl⟩
  · cases h

end Plain

namespace Doc

theorem editAll_cons_of_error {d : Doc} {e : Edit} {misuse : Misuse}
    (h : e.apply d = .error misuse) (rest : List Edit) :
    d.editAll (e :: rest) = .error misuse := by
  rw [editAll, h]
  rfl

theorem editAll_cons_of_ok {d d₁ : Doc} {e : Edit} {taken : Option Doc}
    (h : e.apply d = .ok (taken, d₁)) (rest : List Edit) :
    d.editAll (e :: rest) = (d₁.editAll rest).map (Prod.map (taken :: ·) id) := by
  rw [editAll, h]
  rfl

/-- **The children of a document are a plain list**, whatever is done to them one after the other.
-/
theorem editAll_plain {d : Doc} (hd : d.tag.isCollection = true)
    (hlimit : d.capacity < Collection.limit) (edits : List Edit) :
    (d.editAll edits).toOption.map (Prod.map id plain) = d.plain.run edits ∧
      ∀ taken d', d.editAll edits = .ok (taken, d') →
        d'.name = d.name ∧ d'.tag = d.tag ∧ d'.capacity < Collection.limit := by
  induction edits generalizing d with
  | nil =>
    refine ⟨rfl, ?_⟩
    rintro taken d' ⟨⟩
    exact ⟨rfl, rfl, hlimit⟩
  | cons e rest ih =>
    obtain ⟨hstep, hkeeps⟩ := apply_plain hd hlimit e
    rcases happly : e.apply d with misuse | ⟨taken, d₁⟩
    · rw [editAll_cons_of_error happly, Plain.run, ← hstep, happly]
      exact ⟨rfl, fun taken d' h ↦ by cases h⟩
    · obtain ⟨hname, htag⟩ := hkeeps taken d₁ happly
      rw [happly] at hstep
      obtain ⟨hpossible, -, hcapacity⟩ := Plain.step_eq_some hstep.symm
      have hlimit₁ : d₁.capacity < Collection.limit := hcapacity.trans_lt hpossible.2
      obtain ⟨hrun, hrest⟩ := ih (htag ▸ hd) hlimit₁
      rw [editAll_cons_of_ok happly, Plain.run, ← hstep]
      rcases hall : d₁.editAll rest with misuse | ⟨takens, d₂⟩
      all_goals rw [hall] at hrun
      · refine ⟨?_, fun taken d' h ↦ by cases h⟩
        exact congrArg (Option.map (Prod.map (taken :: ·) id)) hrun
      · obtain ⟨hname₂, htag₂, hlimit₂⟩ := hrest takens d₂ hall
        refine ⟨congrArg (Option.map (Prod.map (taken :: ·) id)) hrun, ?_⟩
        rintro taken' d' ⟨⟩
        exact ⟨hname₂.trans hname, htag₂.trans htag, hlimit₂⟩

end Doc

/-! ## Plain collections, again -/

namespace Plain

/-- An edit that enlarges a collection drops nothing. -/
theorem onList_of_enlarged {p q : Plain} {e : Edit} {taken : Option Doc}
    (hroom : p.items.length ≤ p.capacity) (h : p.step e = some (taken, q))
    (hlarger : p.capacity < q.capacity) : p.items <+: q.items := by
  obtain ⟨-, hitems, hcapacity⟩ := step_eq_some h
  rw [hitems]
  rw [hcapacity] at hlarger
  cases e with
  | push child => exact List.prefix_append _ _
  | setCapacity n =>
    have hall : p.items.take n = p.items :=
      List.take_of_length_le (hroom.trans (Nat.le_of_lt hlarger))
    exact ⟨[], (List.append_nil _).trans hall.symm⟩
  | resize n =>
    have hn : p.capacity < n := by
      by_contra hn
      rw [Edit.capacityAfter, if_pos (Nat.not_lt.1 hn)] at hlarger
      exact Nat.lt_irrefl _ hlarger
    rw [Edit.onList, List.take_of_length_le (hroom.trans (Nat.le_of_lt hn))]
    exact List.prefix_append _ _
  | grow least => exact List.prefix_refl _
  | reserve additional => exact List.prefix_refl _
  | shrinkToFit => exact List.prefix_refl _
  | pop => exact absurd hlarger (Nat.lt_irrefl _)
  | remove index => exact absurd hlarger (Nat.lt_irrefl _)
  | removeOver index => exact absurd hlarger (Nat.lt_irrefl _)

/-- Children there is room for are pushed without the capacity changing. -/
theorem run_pushes_within (children items : List Doc) {capacity : Nat}
    (hroom : items.length + children.length ≤ capacity) (hlimit : capacity < Collection.limit) :
    run (children.map .push) ⟨items, capacity⟩ =
      some (children.map fun _ ↦ none, ⟨items ++ children, capacity⟩) := by
  induction children generalizing items with
  | nil => rw [List.append_nil]; rfl
  | cons child children ih =>
    rw [List.length_cons] at hroom
    have hsame : (Edit.push child).capacityAfter items.length capacity = capacity :=
      if_pos (by omega)
    have hstep : step ⟨items, capacity⟩ (.push child) =
        some (none, ⟨items ++ [child], capacity⟩) := by
      rw [step, if_pos ⟨trivial, hsame.trans_lt hlimit⟩]
      simp only [hsame]
      rfl
    have hrest := ih (items ++ [child]) (by rw [List.length_append, List.length_singleton]; omega)
    rw [List.map_cons, run, hstep, Option.bind_some, hrest, List.append_assoc]
    rfl

end Plain

/-! ### The capacities that pushing goes through -/

namespace Collection

/-- The capacities of a collection that grows from nothing: 0, 8, 24, 56 and so on. -/
def grown : Nat → Nat
  | 0 => 0
  | k + 1 => 2 * grown k + 8

theorem grown_strictMono : StrictMono grown :=
  strictMono_nat_of_lt_succ fun k ↦ by rw [grown]; omega

/-- The least capacity of the series for a number of items. -/
def IsGrownFor (n capacity : Nat) : Prop := IsLeast {c | c ∈ Set.range grown ∧ n ≤ c} capacity

theorem isGrownFor_zero : IsGrownFor 0 0 :=
  ⟨⟨⟨0, rfl⟩, Nat.le_refl 0⟩, fun c _ ↦ Nat.zero_le c⟩

/-- One more item: there is room for it, or the next capacity is the least there is. -/
theorem IsGrownFor.succ {n capacity : Nat} (h : IsGrownFor n capacity) :
    IsGrownFor (n + 1) (if n < capacity then capacity else enlarged capacity 0) := by
  obtain ⟨⟨⟨k, rfl⟩, hle⟩, hleast⟩ := h
  split
  · next hlt => exact ⟨⟨⟨k, rfl⟩, hlt⟩, fun c hc ↦ hleast ⟨hc.1, Nat.le_of_succ_le hc.2⟩⟩
  · next hlt =>
    obtain rfl : n = grown k := Nat.le_antisymm hle (Nat.not_lt.1 hlt)
    have henlarged : enlarged (grown k) 0 = grown (k + 1) := Nat.max_eq_left (Nat.zero_le _)
    rw [henlarged]
    refine ⟨⟨⟨k + 1, rfl⟩, grown_strictMono (Nat.lt_succ_self k)⟩, ?_⟩
    rintro c ⟨⟨j, rfl⟩, hj⟩
    exact grown_strictMono.monotone (grown_strictMono.lt_iff_lt.1 hj)

theorem exists_isGrownFor (n : Nat) : ∃ capacity, IsGrownFor n capacity := by
  induction n with
  | zero => exact ⟨0, isGrownFor_zero⟩
  | succ n ih =>
    obtain ⟨capacity, h⟩ := ih
    exact ⟨_, h.succ⟩

/-- More items never need less. -/
theorem IsGrownFor.mono {m n c c' : Nat} (h : IsGrownFor m c) (h' : IsGrownFor n c')
    (hle : m ≤ n) : c ≤ c' :=
  h.2 ⟨h'.1.1, hle.trans h'.1.2⟩

end Collection

/-- A collection that is built by pushing has the least capacity of the series that its items need,
as far as memory goes. -/
theorem Plain.run_pushes_grown (children items : List Doc) {capacity final : Nat}
    (h : Collection.IsGrownFor items.length capacity) (hlimit : capacity < Collection.limit)
    (hfinal : Collection.IsGrownFor (items.length + children.length) final) :
    run (children.map .push) ⟨items, capacity⟩ =
      if final < Collection.limit then
        some (children.map fun _ ↦ none, ⟨items ++ children, final⟩)
      else none := by
  induction children generalizing items capacity with
  | nil =>
    obtain rfl : final = capacity :=
      Nat.le_antisymm (hfinal.mono h (Nat.le_refl _)) (h.mono hfinal (Nat.le_refl _))
    rw [if_pos hlimit, List.append_nil]
    rfl
  | cons child children ih =>
    have hnext := h.succ
    rw [List.map_cons, run, step]
    by_cases hpossible : (Edit.push child).IsPossible items.length capacity
    · have hlength : (items ++ [child]).length = items.length + 1 := List.length_append
      have hrest := ih (items ++ [child]) (hlength ▸ hnext) hpossible.2
        (by rw [hlength, Nat.add_right_comm]; exact hfinal)
      rw [if_pos hpossible, Option.bind_some]
      refine (congrArg (Option.map _) hrest).trans ?_
      rw [List.append_assoc]
      split <;> rfl
    · rw [if_neg hpossible, if_neg]
      · rfl
      · exact fun hlt ↦ hpossible ⟨trivial, (hnext.mono hfinal (by simp)).trans_lt hlt⟩

/-! ## Documents, again -/

namespace Doc

/-- After reserving room for some children these can be pushed, and the capacity stays. -/
theorem editAll_reserve {d d' : Doc} {k : Nat} {children : List Doc}
    (hd : d.tag.isCollection = true) (hlimit : d.capacity < Collection.limit)
    (hreserve : d.reserve k = .ok d') (hle : children.length ≤ k) :
    (d'.editAll (children.map .push)).toOption.map (Prod.map id plain) =
      some (children.map fun _ ↦ none, ⟨d.children ++ children, d'.capacity⟩) := by
  have happly : (Edit.reserve k).apply d = .ok (none, d') := by rw [Edit.apply, hreserve]; rfl
  obtain ⟨hstep, hkeeps⟩ := apply_plain hd hlimit (.reserve k)
  rw [happly] at hstep
  obtain ⟨hpossible, hitems, hcapacity⟩ := Plain.step_eq_some hstep.symm
  have htag := (hkeeps none d' happly).2
  have hlimit' : d'.capacity < Collection.limit := hcapacity.trans_lt hpossible.2
  have hroom : d.children.length + k ≤ d'.capacity := by
    rw [show d'.capacity = _ from hcapacity, Edit.capacityAfter]
    split
    · assumption
    · exact Nat.le_max_right _ _
  have hchildren : d'.children = d.children := hitems
  have hrun := (editAll_plain (htag ▸ hd) hlimit' (children.map .push)).1
  rw [hrun, plain, hchildren]
  exact Plain.run_pushes_within children d.children (by omega) hlimit'

/-- **What becomes of the children of a document and of its capacity**, by edits one after the
other. -/
theorem edits_refine_plain_lists (d : Doc) (hd : d.tag.isCollection = true)
    (hlimit : d.capacity < Collection.limit) (edits : List Edit) :
    (d.editAll edits).toOption.map (Prod.map id plain) = d.plain.run edits ∧
      (∀ taken d', d.editAll edits = .ok (taken, d') →
        d'.name = d.name ∧ d'.tag = d.tag ∧ d'.size ≤ d'.capacity ∧
        (∀ (e : Edit) out d'', e.apply d' = .ok (out, d'') → d'.capacity < d''.capacity →
          d'.children <+: d''.children) ∧
        ∀ k d'' children, d'.reserve k = .ok d'' → children.length ≤ k →
          (d''.editAll (children.map .push)).toOption.map (Prod.map id plain) =
            some (children.map fun _ ↦ none, ⟨d'.children ++ children, d''.capacity⟩)) ∧
      (d.capacity = 0 → ∀ children : List Doc,
        ∃ c, IsLeast {c | c ∈ Set.range Collection.grown ∧ children.length ≤ c} c ∧
          (d.editAll (children.map .push)).toOption.map (Prod.map id plain) =
            if c < Collection.limit then some (children.map fun _ ↦ none, ⟨children, c⟩)
            else none) := by
  obtain ⟨hrun, hkeeps⟩ := editAll_plain hd hlimit edits
  refine ⟨hrun, fun taken d' hd' ↦ ?_, fun hzero children ↦ ?_⟩
  · obtain ⟨hname, htag, hlimit'⟩ := hkeeps taken d' hd'
    refine ⟨hname, htag, Nat.le_add_right _ _, fun e out d'' happly hlarger ↦ ?_,
      fun k d'' children ↦ editAll_reserve (htag ▸ hd) hlimit'⟩
    have hstep := (apply_plain (htag ▸ hd) hlimit' e).1
    rw [happly] at hstep
    exact Plain.onList_of_enlarged (Nat.le_add_right _ _) hstep.symm hlarger
  · obtain ⟨c, hc⟩ := Collection.exists_isGrownFor children.length
    refine ⟨c, hc, ?_⟩
    have hnil : d.children = [] :=
      List.length_eq_zero_iff.1 (Nat.eq_zero_of_add_eq_zero_right hzero)
    rw [(editAll_plain hd hlimit (children.map .push)).1, plain, hnil, hzero]
    refine Plain.run_pushes_grown children [] Collection.isGrownFor_zero (by decide) ?_
    rwa [List.length_nil, Nat.zero_add]

theorem edits_refine_plain_lists_array :
    ((ofTag .array).editAll [.push { content := .integer 1 }, .push { content := .integer 2 },
        .push { content := .integer 3 }, .removeOver 0, .reserve 9, .resize 3, .remove 1,
        .setCapacity 5, .pop]).toOption.map (Prod.map id plain) =
      some ([none, none, none, some { content := .integer 1 }, none, none,
        some { content := .integer 2 }, none, some {}], ⟨[{ content := .integer 3 }], 5⟩) :=
  (edits_refine_plain_lists (ofTag .array) rfl (by decide) _).1.trans rfl

end Doc
end DocGrammar
