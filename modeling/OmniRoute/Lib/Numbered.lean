import Mathlib

/-!
# Lists of numbered items

A waiting list whose items carry increasing numbers, such as the order of arrival. The number
tells the items apart, so removing an item is filtering its number out, and the head of the list
is the oldest item.
-/

namespace Numbered

open List

variable {α : Type*} {num : α → ℕ} {l : List α}

/-- The numbers increase along the list. -/
def Increasing (num : α → ℕ) (l : List α) : Prop := l.Pairwise fun a b => num a < num b

section

variable (h : Increasing num l)
include h

theorem Increasing.sublist {l' : List α} (hl : l'.Sublist l) :
    Increasing num l' := List.Pairwise.sublist hl h

theorem Increasing.nodup_map : (l.map num).Nodup :=
  pairwise_map.2 (h.imp Nat.ne_of_lt)

theorem Increasing.nodup : l.Nodup := h.nodup_map.of_map

theorem Increasing.inj {a b : α} (ha : a ∈ l) (hb : b ∈ l) (hn : num a = num b) : a = b :=
  inj_on_of_nodup_map h.nodup_map ha hb hn

/-- An item with a larger number goes to the end. -/
theorem Increasing.concat {a : α} (ha : ∀ b ∈ l, num b < num a) : Increasing num (l ++ [a]) :=
  pairwise_append.2 ⟨h, pairwise_singleton _ _, fun b hb c hc => by
    rw [mem_singleton.1 hc]
    exact ha b hb⟩

/-- The first item is the oldest. -/
theorem Increasing.head_le {a b : α} (ha : l.head? = some a) (hb : b ∈ l) :
    b = a ∨ num a < num b := by
  cases l with
  | nil => cases hb
  | cons c l =>
    cases ha
    rcases mem_cons.1 hb with rfl | hb
    · exact Or.inl rfl
    · exact Or.inr ((pairwise_cons.1 h).1 b hb)

end

variable [DecidableEq α]

theorem Increasing.erase (h : Increasing num l) (a : α) : Increasing num (l.erase a) :=
  h.sublist erase_sublist

/-- Removing an item from a filtered list, in terms of the numbers. -/
theorem Increasing.map_filter_erase (h : Increasing num l) {a : α} (ha : a ∈ l) (p : α → Bool) :
    ((l.erase a).filter p).map num =
      if p a then ((l.filter p).map num).erase (num a) else (l.filter p).map num := by
  rw [h.nodup.erase_eq_filter, filter_filter]
  split
  · next hp =>
    have hnd : ((l.filter p).map num).Nodup := (h.sublist filter_sublist).nodup_map
    rw [hnd.erase_eq_filter, filter_map, filter_filter]
    congr 1
    refine filter_congr fun b hb => ?_
    have hiff : num b = num a ↔ b = a := ⟨h.inj hb ha, congrArg num⟩
    by_cases hba : b = a
    · simp [hba]
    · have hnum : num b ≠ num a := mt hiff.1 hba
      simp [bne_iff_ne.2 hba, bne_iff_ne.2 hnum]
  · next hp =>
    congr 1
    refine filter_congr fun b _ => ?_
    by_cases hba : b = a
    · subst hba
      simp [hp]
    · simp [hba]

end Numbered
