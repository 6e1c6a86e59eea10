import Mathlib

/-!
# Text with separators

Keys are often made by joining parts with a separator character. A part that does not contain the
separator can be read back: the first one if it stands before the first separator
(`append_sep_left`), the last one if it stands after the last (`append_sep_right`). Decimal
numerals contain digits and a sign only, and different numbers have different numerals.
-/

namespace Delimited

open List

variable {α : Type*} {sep : α}

/-- The part before the first separator. -/
theorem append_sep_left {x x' s s' : List α} (hx : sep ∉ x) (hx' : sep ∉ x')
    (h : x ++ sep :: s = x' ++ sep :: s') : x = x' ∧ s = s' := by
  induction x generalizing x' with
  | nil =>
    cases x' with
    | nil => exact ⟨rfl, (List.cons.inj h).2⟩
    | cons a x' =>
      have heq : sep = a := (List.cons.inj h).1
      exact absurd (heq ▸ mem_cons_self) hx'
  | cons a x ih =>
    cases x' with
    | nil =>
      have heq : a = sep := (List.cons.inj h).1
      exact absurd (heq ▸ mem_cons_self) hx
    | cons a' x' =>
      obtain ⟨rfl, hrest⟩ := List.cons.inj h
      obtain ⟨rfl, hs⟩ := ih (fun hmem => hx (mem_cons_of_mem _ hmem))
        (fun hmem => hx' (mem_cons_of_mem _ hmem)) hrest
      exact ⟨rfl, hs⟩

/-- The part after the last separator. -/
theorem append_sep_right {x x' s s' : List α} (hx : sep ∉ x) (hx' : sep ∉ x')
    (h : s ++ sep :: x = s' ++ sep :: x') : s = s' ∧ x = x' := by
  have hrev := congrArg List.reverse h
  simp only [reverse_append, reverse_cons, append_assoc, singleton_append] at hrev
  obtain ⟨hx_eq, hs_eq⟩ := append_sep_left (fun hmem => hx (mem_reverse.1 hmem))
    (fun hmem => hx' (mem_reverse.1 hmem)) hrev
  exact ⟨reverse_injective hs_eq, reverse_injective hx_eq⟩

/-! ## Decimal numerals -/

theorem toList_toString_nat (n : ℕ) : (toString n).toList = Nat.toDigits 10 n := by
  rw [Nat.toString_eq_repr, Nat.toList_repr]

theorem isDigit_of_mem_nat {n : ℕ} {c : Char} (h : c ∈ (toString n).toList) : c.isDigit = true := by
  rw [toList_toString_nat] at h
  exact Nat.isDigit_of_mem_toDigits (by decide) (by decide) h

theorem toString_nat_inj {m n : ℕ} (h : toString m = toString n) : m = n := by
  have hdigits := congrArg String.toList h
  rw [toList_toString_nat, toList_toString_nat] at hdigits
  rw [← Nat.ofDigitChars_ten_toDigits (n := m), hdigits, Nat.ofDigitChars_ten_toDigits]

theorem toString_int_eq (z : ℤ) : (toString z).toList =
    if 0 ≤ z then (toString z.toNat).toList else '-' :: (toString (-z).toNat).toList := by
  rw [Int.toString_eq_repr, Int.repr_eq_if]
  split
  · rfl
  · simp

theorem mem_int {z : ℤ} {c : Char} (h : c ∈ (toString z).toList) : c.isDigit = true ∨ c = '-' := by
  rw [toString_int_eq] at h
  split at h
  · exact Or.inl (isDigit_of_mem_nat h)
  · rcases mem_cons.1 h with rfl | h
    · exact Or.inr rfl
    · exact Or.inl (isDigit_of_mem_nat h)

theorem toString_int_inj {y z : ℤ} (h : toString y = toString z) : y = z := by
  have hlist := congrArg String.toList h
  rw [toString_int_eq, toString_int_eq] at hlist
  have hminus : ∀ n : ℕ, '-' ∉ (toString n).toList := by
    intro n hmem
    exact absurd (isDigit_of_mem_nat hmem) (by decide)
  split at hlist
  · split at hlist
    · have hnat := toString_nat_inj (String.toList_inj.1 hlist)
      omega
    · exact absurd (hlist ▸ mem_cons_self) (hminus _)
  · split at hlist
    · exact absurd (hlist.symm ▸ mem_cons_self) (hminus _)
    · have hnat := toString_nat_inj (String.toList_inj.1 (List.cons.inj hlist).2)
      omega

end Delimited
