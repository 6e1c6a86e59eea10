import Mathlib

/-!
# Qualified names

A container and a leaf are joined by a separator that is one symbol twice, and a container that ends
with the separator is joined as it is (`containerPrefix`).

**Main result (`append_eq_append_iff_of_free`).** Where the leaves do not hold the separator, two
qualified names are equal exactly when prefix and leaf are, or when the symbol has moved from the
end of one prefix to the front of the other leaf.
-/

namespace Qualified

open List

variable {α : Type*} [DecidableEq α] (c : α)

/-- The container with the separator, which is not repeated. -/
def containerPrefix (container : List α) : List α :=
  if [c, c].isSuffixOf container then container else container ++ [c, c]

variable {c}

theorem suffix_containerPrefix (container : List α) : [c, c] <:+ containerPrefix c container := by
  unfold containerPrefix
  split
  · next h => exact isSuffixOf_iff_suffix.1 h
  · exact suffix_append _ _

omit [DecidableEq α] in
/-- What follows a prefix in another one is empty, or the symbol that ends the separator. -/
theorem eq_of_free {p t : List α} (hsuffix : [c, c] <:+ p ++ t) (hfree : ¬[c, c] <:+: t) :
    t = [] ∨ t = [c] := by
  match t with
  | [] => exact .inl rfl
  | [x] =>
    obtain ⟨r, hr⟩ := hsuffix
    have hlast := congrArg List.getLast? (show r ++ [c] ++ [c] = p ++ [x] by simpa using hr)
    rw [getLast?_concat, getLast?_concat] at hlast
    exact .inr (by rw [Option.some.inj hlast])
  | x :: y :: t =>
    have hlong : ([c, c] : List α).length ≤ (x :: y :: t).length := by simp
    have ht := suffix_of_suffix_length_le hsuffix (suffix_append p (x :: y :: t)) hlong
    exact absurd ht.isInfix hfree

omit [DecidableEq α] in
/-- **The symbol may move from the prefix to the leaf, and nothing else.** -/
theorem append_eq_append_iff_of_free {p p' l l' : List α} (hp : [c, c] <:+ p) (hp' : [c, c] <:+ p')
    (hl : ¬[c, c] <:+: l) (hl' : ¬[c, c] <:+: l') :
    p ++ l = p' ++ l' ↔ p = p' ∧ l = l' ∨ p = p' ++ [c] ∧ l' = c :: l ∨
      p' = p ++ [c] ∧ l = c :: l' := by
  constructor
  · intro h
    rcases append_eq_append_iff.1 h with ⟨t, rfl, rfl⟩ | ⟨t, rfl, rfl⟩
    · rcases eq_of_free hp' fun ht => hl (ht.trans (List.prefix_append t l').isInfix) with rfl | rfl
      · exact .inl ⟨(append_nil p).symm, rfl⟩
      · exact .inr (.inr ⟨rfl, rfl⟩)
    · rcases eq_of_free hp fun ht => hl' (ht.trans (List.prefix_append t l).isInfix) with rfl | rfl
      · exact .inl ⟨append_nil p', rfl⟩
      · exact .inr (.inl ⟨rfl, rfl⟩)
  · rintro (⟨rfl, rfl⟩ | ⟨rfl, rfl⟩ | ⟨rfl, rfl⟩)
    · rfl
    · exact append_assoc p' [c] l
    · exact (append_assoc p [c] l').symm

end Qualified
