import DocGrammar.Doc.Collection

/-!
# Collections

What each operation of a `Collection` does to the items and to the capacity.  The operations are
made of one another: reserving and resizing grow the collection, and growing it sets its capacity,
which is the one operation that can drop items.  So there are two things to see: growing sets a
capacity that is no less than the size, and taking an item out frees its place and no other.
-/

set_option autoImplicit false

namespace DocGrammar
namespace Collection

variable {α : Type}

/-- The capacity that a collection is enlarged to. -/
def enlarged (capacity least : Nat) : Nat := max (2 * capacity + 8) least

section

variable (c : Collection α) (n : Nat) (item : α)

theorem length_le_capacity : c.items.length ≤ c.capacity := Nat.le_add_right _ _

theorem setCapacity_items : (c.setCapacity n).items = c.items.take n := rfl

theorem setCapacity_capacity : (c.setCapacity n).capacity = n := by
  simp only [setCapacity, capacity, List.length_take]
  omega

/-- Growing sets a capacity that is no less than the size, so it drops nothing. -/
theorem grow_items : (c.grow n).items = c.items := by
  have hle := c.length_le_capacity
  exact List.take_of_length_le (by omega)

theorem grow_capacity : (c.grow n).capacity = enlarged c.capacity n := c.setCapacity_capacity _

theorem ensure_items : (c.ensure n).items = c.items := by
  unfold ensure
  split
  · exact c.grow_items n
  · rfl

theorem ensure_capacity :
    (c.ensure n).capacity = if n ≤ c.capacity then c.capacity else enlarged c.capacity n := by
  unfold ensure
  split
  · next h => rw [if_neg (Nat.not_le.2 h), grow_capacity]
  · next h => rw [if_pos (Nat.not_lt.1 h)]

theorem le_ensure_capacity : n ≤ (c.ensure n).capacity := by
  rw [ensure_capacity]
  split
  · assumption
  · exact Nat.le_max_right _ _

theorem ensureSpace_items : c.ensureSpace.items = c.items := by
  unfold ensureSpace
  split
  · exact c.grow_items 0
  · rfl

theorem ensureSpace_capacity :
    c.ensureSpace.capacity =
      if c.items.length < c.capacity then c.capacity else enlarged c.capacity 0 := by
  unfold ensureSpace
  split
  · next h => rw [if_neg (by simp [capacity, h]), grow_capacity]
  · next h => rw [if_pos (by simp only [capacity]; omega)]

theorem length_lt_ensureSpace_capacity : c.items.length < c.ensureSpace.capacity := by
  have hle := c.length_le_capacity
  rw [ensureSpace_capacity]
  split
  · assumption
  · have hlarger := Nat.le_max_left (2 * c.capacity + 8) 0
    unfold enlarged
    omega

theorem append_items : (c.append item).items = c.items ++ [item] := rfl

/-- Appending where there is space takes one of the free places. -/
theorem append_capacity (h : c.items.length < c.capacity) :
    (c.append item).capacity = c.capacity := by
  simp only [append, capacity, List.length_append, List.length_singleton] at h ⊢
  omega

theorem fill_items (filler : α) :
    (c.fill n filler).items = c.items.take n ++ List.replicate (n - c.items.length) filler :=
  rfl

theorem fill_capacity (filler : α) (h : n ≤ c.capacity) :
    (c.fill n filler).capacity = c.capacity := by
  simp only [fill, capacity, size, List.length_append, List.length_take,
    List.length_replicate] at h ⊢
  omega

theorem shrinkToFit_capacity : c.shrinkToFit.capacity = c.items.length := rfl

end

/-! Taking an item out frees its place. -/

/-- A list whose last item takes the place of the one at an index. -/
def lastMovedTo (i : Nat) (items : List α) : List α :=
  items.getLast?.elim [] fun last ↦ items.dropLast.set i last

section

variable (c : Collection α) (i : Nat)

theorem pop_fst : c.pop.1 = c.items.getLast? := by
  unfold pop
  split
  · next h => exact h.symm
  · next h => exact h.symm

theorem pop_items : c.pop.2.items = c.items.dropLast := by
  unfold pop
  split
  · rfl
  · next h =>
    rw [List.getLast?_eq_none_iff] at h
    rw [h, List.dropLast_nil]

theorem pop_capacity : c.pop.2.capacity = c.capacity := by
  unfold pop
  split
  · next last h =>
    have hpos : 0 < c.items.length := List.length_pos_iff.2 fun hnil ↦ by simp [hnil] at h
    simp only [capacity, List.length_dropLast]
    omega
  · rfl

theorem remove?_eq_some (h : i < c.items.length) :
    ∃ c', c.remove? i = some (c.items[i], c') ∧
      c'.items = c.items.eraseIdx i ∧ c'.capacity = c.capacity := by
  refine ⟨_, by rw [remove?, List.getElem?_eq_getElem h]; rfl, rfl, ?_⟩
  simp only [capacity, List.length_eraseIdx_of_lt h]
  omega

theorem remove?_eq_none (h : ¬ i < c.items.length) : c.remove? i = none := by
  rw [remove?, List.getElem?_eq_none (Nat.not_lt.1 h)]
  rfl

theorem removeOver?_eq_some (h : i < c.items.length) :
    ∃ c', c.removeOver? i = some (c.items[i], c') ∧
      c'.items = lastMovedTo i c.items ∧ c'.capacity = c.capacity := by
  have hpos : 0 < c.items.length := Nat.zero_lt_of_lt h
  have hlast := List.getLast?_eq_some_getLast (List.length_pos_iff.1 hpos)
  refine ⟨_, by rw [removeOver?, List.getElem?_eq_getElem h, hlast], ?_, ?_⟩
  · rw [lastMovedTo, hlast, Option.elim_some, List.dropLast_eq_take, List.dropLast_eq_take,
      List.take_set, List.length_set]
  · simp only [capacity, List.length_dropLast, List.length_set]
    omega

theorem removeOver?_eq_none (h : ¬ i < c.items.length) : c.removeOver? i = none := by
  rw [removeOver?, List.getElem?_eq_none (Nat.not_lt.1 h)]

end

end Collection
end DocGrammar
