import Mathlib

/-!
# The maximum of a list, from a start

`list.foldl max start`, as a loop computes it: what bounds it, what it is one of, and what happens to
it when the same amount is taken off all elements.
-/

section LinearOrder

variable {α : Type*} [LinearOrder α]

theorem le_foldl_max {l : List α} {start : α} : start ≤ l.foldl max start := by
  induction l generalizing start with
  | nil => exact le_rfl
  | cons a l ih => exact (le_max_left start a).trans ih

theorem foldl_max_le_iff {l : List α} {start bound : α} :
    l.foldl max start ≤ bound ↔ start ≤ bound ∧ ∀ a ∈ l, a ≤ bound := by
  induction l generalizing start with
  | nil => simp
  | cons a l ih => rw [List.foldl_cons, ih, max_le_iff, List.forall_mem_cons, and_assoc]

theorem le_foldl_max_of_mem {l : List α} {start a : α} (h : a ∈ l) : a ≤ l.foldl max start :=
  (foldl_max_le_iff.1 le_rfl).2 a h

theorem foldl_max_mem (l : List α) (start : α) :
    l.foldl max start = start ∨ l.foldl max start ∈ l := by
  induction l generalizing start with
  | nil => exact Or.inl rfl
  | cons a l ih =>
    rw [List.foldl_cons]
    rcases ih (max start a) with heq | hmem
    · rw [heq]
      rcases max_choice start a with hstart | ha
      · exact Or.inl hstart
      · rw [ha]
        exact Or.inr List.mem_cons_self
    · exact Or.inr (List.mem_cons_of_mem a hmem)

end LinearOrder

/-- What is taken off all elements of a list, down to zero, is taken off their maximum. -/
theorem foldl_max_elapsed {α : Type*} [AddCommGroup α] [LinearOrder α] [IsOrderedAddMonoid α]
    (l : List α) (start elapsed : α) :
    (l.map fun a => max 0 (a - elapsed)).foldl max (max 0 (start - elapsed)) =
      max 0 (l.foldl max start - elapsed) := by
  induction l generalizing start with
  | nil => rfl
  | cons a l ih =>
    rw [List.map_cons, List.foldl_cons, List.foldl_cons, ← ih]
    congr 1
    rw [← max_sub_sub_right, max_max_max_comm, max_self]
