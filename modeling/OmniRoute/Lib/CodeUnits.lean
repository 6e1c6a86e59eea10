import Mathlib

/-!
# Texts of code units

A string of a scripting language is a list of UTF-16 code units, which need not be paired. Trimming
takes white space off both ends: it keeps every other unit (`solid_trim`), and every part of the
text that holds no white space (`infix_trim_iff`).
-/

abbrev CodeUnits := List UInt16

instance : LawfulBEq CodeUnits := inferInstance

namespace CodeUnits

open List

/-- The encoding of a text. -/
def ofString (s : String) : CodeUnits :=
  s.toList.flatMap fun c =>
    if c.toNat < 0x10000 then [c.toNat.toUInt16]
    else [(0xD800 + (c.toNat - 0x10000) / 0x400).toUInt16,
      (0xDC00 + (c.toNat - 0x10000) % 0x400).toUInt16]

/-- White space to `String.prototype.trim`. -/
def isSpace (u : UInt16) : Bool :=
  (9 ≤ u && u ≤ 13) || u = 0x20 || u = 0xA0 || u = 0x1680 || (0x2000 ≤ u && u ≤ 0x200A) ||
    u = 0x2028 || u = 0x2029 || u = 0x202F || u = 0x205F || u = 0x3000 || u = 0xFEFF

/-- `s.trim()` -/
def trim (s : CodeUnits) : CodeUnits := (s.dropWhile isSpace).rdropWhile isSpace

/-- How many units are not white space. -/
def solid (s : CodeUnits) : ℕ := s.countP fun u => !isSpace u

variable {s t : CodeUnits}

@[simp] theorem solid_nil : solid [] = 0 := rfl

@[simp] theorem solid_append (s t : CodeUnits) : solid (s ++ t) = solid s + solid t :=
  countP_append

theorem solid_dropWhile (s : CodeUnits) : solid (s.dropWhile isSpace) = solid s := by
  induction s with
  | nil => rfl
  | cons u s ih =>
    by_cases hu : isSpace u = true
    · rw [dropWhile_cons_of_pos hu, ih]
      exact (countP_cons_of_neg (by simp [hu])).symm
    · rw [dropWhile_cons_of_neg hu]

theorem solid_reverse (s : CodeUnits) : solid s.reverse = solid s := countP_reverse

theorem solid_trim (s : CodeUnits) : solid (trim s) = solid s := by
  unfold trim List.rdropWhile
  rw [solid_reverse, solid_dropWhile, solid_reverse, solid_dropWhile]

/-- A part without white space stands behind the white space at the beginning. -/
theorem infix_dropWhile (ht : ∀ u ∈ t, isSpace u = false) (h : t <:+: s) :
    t <:+: s.dropWhile isSpace := by
  induction s with
  | nil => exact h
  | cons u s ih =>
    by_cases hu : isSpace u = true
    · rw [dropWhile_cons_of_pos hu]
      rcases infix_cons_iff.1 h with hp | hin
      · cases t with
        | nil => exact nil_infix
        | cons v t =>
          obtain ⟨rfl, -⟩ := cons_prefix_cons.1 hp
          exact absurd hu (by rw [ht v mem_cons_self]; exact nofun)
      · exact ih hin
    · rw [dropWhile_cons_of_neg hu]
      exact h

theorem infix_trim_iff (ht : ∀ u ∈ t, isSpace u = false) : t <:+: trim s ↔ t <:+: s := by
  constructor
  · intro h
    exact (h.trans ( rdropWhile_prefix _ _).isInfix).trans (dropWhile_suffix _).isInfix
  · intro h
    have hdrop := infix_dropWhile ht h
    unfold trim List.rdropWhile
    rw [← reverse_infix, reverse_reverse]
    refine infix_dropWhile (fun u hu => ht u (mem_reverse.1 hu)) ?_
    exact reverse_infix.2 hdrop

theorem trim_trim (s : CodeUnits) : trim (trim s) = trim s := by
  have hhead : (trim s).dropWhile isSpace = trim s := by
    cases ht : trim s with
    | nil => rfl
    | cons u t =>
      obtain ⟨r, hr⟩ := rdropWhile_prefix isSpace (l := s.dropWhile isSpace)
      have hnot := head?_dropWhile_not isSpace s
      have htrim : (s.dropWhile isSpace).rdropWhile isSpace = u :: t := ht
      rw [← hr, htrim, cons_append, head?_cons] at hnot
      exact dropWhile_cons_of_neg (by simpa using hnot)
  rw [trim, hhead]
  exact rdropWhile_idempotent isSpace _

end CodeUnits
