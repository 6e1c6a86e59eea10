import Mathlib

/-!
# Lines of a text that arrives in pieces

A reader of lines keeps the text after the last separator in a buffer and puts it in front of
the next piece. `lines` are the lines that are complete, `rest` is what stays in the buffer.

**Main result (`lines_append`).** Reading a text in two pieces gives the lines of the whole.
-/

namespace Lines

open List

variable {α : Type*} [BEq α] (sep : α)

/-- The lines that end in a separator. -/
def lines (text : List α) : List (List α) := (text.splitOn sep).dropLast

/-- The text after the last separator. -/
def rest (text : List α) : List α := (text.splitOn sep).getLast (splitOn_ne_nil _ _)

variable {sep}

theorem splitOn_eq (text : List α) : text.splitOn sep = lines sep text ++ [rest sep text] :=
  (dropLast_append_getLast _).symm

theorem splitOn_append (s t : List α) :
    (s ++ t).splitOn sep = lines sep s ++ (rest sep s ++ t).splitOn sep := by
  induction s with
  | nil => simp [lines, rest]
  | cons c s ih =>
    rw [cons_append, splitOn_cons_eq_if_modifyHead, ih]
    have hs : s.splitOn sep = lines sep s ++ [rest sep s] := splitOn_eq s
    by_cases hc : (c == sep) = true
    · have hcons : (c :: s).splitOn sep = [] :: s.splitOn sep := by
        rw [splitOn_cons_eq_if_modifyHead, if_pos hc]
      have hlines : lines sep (c :: s) = [] :: lines sep s := by
        rw [lines, hcons, dropLast_cons_of_ne_nil (splitOn_ne_nil _ _), lines]
      have hrest : rest sep (c :: s) = rest sep s := by
        simp only [rest, hcons]
        exact getLast_cons _
      rw [if_pos hc, hlines, hrest, cons_append]
    · have hcons : (c :: s).splitOn sep = (s.splitOn sep).modifyHead (List.cons c) := by
        rw [splitOn_cons_eq_if_modifyHead, if_neg hc]
      rw [if_neg hc]
      cases hl : lines sep s with
      | nil =>
        have hone : (c :: s).splitOn sep = [c :: rest sep s] := by rw [hcons, hs, hl]; rfl
        have hlines : lines sep (c :: s) = [] := by rw [lines, hone]; rfl
        have hrest : rest sep (c :: s) = c :: rest sep s := by simp only [rest, hone]; rfl
        rw [hlines, hrest, List.nil_append, List.nil_append, cons_append,
          splitOn_cons_eq_if_modifyHead, if_neg hc]
      | cons l ls =>
        have hmany : (c :: s).splitOn sep = (c :: l) :: (ls ++ [rest sep s]) := by
          rw [hcons, hs, hl]; rfl
        have hlines : lines sep (c :: s) = (c :: l) :: ls := by
          rw [lines, hmany, ← cons_append, dropLast_concat]
        have hrest : rest sep (c :: s) = rest sep s := by
          simp only [rest, hmany, ← cons_append]
          exact getLast_concat
        rw [hlines, hrest]
        rfl

theorem lines_append (s t : List α) :
    lines sep (s ++ t) = lines sep s ++ lines sep (rest sep s ++ t) := by
  rw [lines, splitOn_append, dropLast_append_of_ne_nil (splitOn_ne_nil _ _), lines, lines]

/-- The text of the buffer is no line yet. -/
@[simp] theorem lines_rest (s : List α) : lines sep (rest sep s) = [] := by
  have h : lines sep (s ++ []) = lines sep s ++ lines sep (rest sep s ++ []) := lines_append s []
  rw [append_nil, append_nil] at h
  exact self_eq_append_right.1 h

end Lines
