import Mathlib

/-!
# The first element of each key

`firsts key l` keeps of the elements with one key the first. Such a pass is a filter with a set of
the keys that were seen.

**Main result (`mem_firsts`).** An element is kept exactly when a search for its key finds it.
-/

namespace Firsts

open List

variable {α κ : Type*} [DecidableEq κ] (key : α → κ)

/-- The elements whose key is not among `seen` and not that of an element before. -/
def firstsFrom (seen : List κ) : List α → List α
  | [] => []
  | a :: l => if key a ∈ seen then firstsFrom seen l else a :: firstsFrom (key a :: seen) l

def firsts (l : List α) : List α := firstsFrom key [] l

variable {key}

theorem mem_firstsFrom {seen : List κ} {l : List α} {a : α} :
    a ∈ firstsFrom key seen l ↔ key a ∉ seen ∧ l.find? (fun b => key b = key a) = some a := by
  induction l generalizing seen with
  | nil => simp [firstsFrom]
  | cons b l ih =>
    rw [firstsFrom]
    by_cases hb : key b ∈ seen
    · rw [if_pos hb, ih]
      refine and_congr_right fun ha => ?_
      have hne : key b ≠ key a := fun h => ha (h ▸ hb)
      rw [find?_cons_of_neg (by simpa using hne)]
    · rw [if_neg hb, mem_cons, ih]
      by_cases hkey : key b = key a
      · rw [find?_cons_of_pos (by simpa using hkey), Option.some.injEq]
        constructor
        · rintro (rfl | ⟨hnot, -⟩)
          · exact ⟨hb, rfl⟩
          · exact absurd (mem_cons.2 (.inl hkey.symm)) hnot
        · exact fun h => .inl h.2.symm
      · rw [find?_cons_of_neg (by simpa using hkey)]
        constructor
        · rintro (rfl | ⟨hnot, hfind⟩)
          · exact absurd rfl hkey
          · exact ⟨fun h => hnot (mem_cons_of_mem _ h), hfind⟩
        · rintro ⟨hnot, hfind⟩
          refine .inr ⟨fun h => ?_, hfind⟩
          rcases mem_cons.1 h with h | h
          · exact hkey h.symm
          · exact hnot h

theorem mem_firsts {l : List α} {a : α} :
    a ∈ firsts key l ↔ l.find? (fun b => key b = key a) = some a := by
  rw [firsts, mem_firstsFrom]
  exact ⟨fun h => h.2, fun h => ⟨not_mem_nil, h⟩⟩

theorem mem_of_mem_firsts {l : List α} {a : α} (h : a ∈ firsts key l) : a ∈ l :=
  mem_of_find?_eq_some (mem_firsts.1 h)

/-- Every key is kept. -/
theorem exists_mem_firsts {l : List α} {a : α} (h : a ∈ l) : ∃ b ∈ firsts key l, key b = key a := by
  obtain ⟨b, hb⟩ : ∃ b, l.find? (fun b => key b = key a) = some b :=
    Option.isSome_iff_exists.1 (find?_isSome.2 ⟨a, h, by simp⟩)
  have hkey : key b = key a := by simpa using find?_some hb
  refine ⟨b, mem_firsts.2 ?_, hkey⟩
  rw [hkey]
  exact hb

theorem nodup_firstsFrom (seen : List κ) (l : List α) :
    ((firstsFrom key seen l).map key).Nodup := by
  induction l generalizing seen with
  | nil => exact nodup_nil
  | cons a l ih =>
    rw [firstsFrom]
    split
    · exact ih seen
    · rw [map_cons, nodup_cons]
      refine ⟨fun h => ?_, ih _⟩
      obtain ⟨b, hb, hkey⟩ := mem_map.1 h
      exact (mem_firstsFrom.1 hb).1 (mem_cons.2 (.inl hkey))

/-- No key is kept twice. -/
theorem nodup_firsts (l : List α) : ((firsts key l).map key).Nodup := nodup_firstsFrom [] l

/-- In a sorted list a search finds the least element. -/
theorem find?_eq_some_iff_of_pairwise {r : α → α → Prop} (hr : ∀ a b, r a b → ¬r b a)
    {l : List α} (h : l.Pairwise r) {p : α → Bool} {a : α} :
    l.find? p = some a ↔ a ∈ l ∧ p a = true ∧ ∀ b ∈ l, p b = true → ¬r b a := by
  induction l with
  | nil => simp
  | cons c l ih =>
    obtain ⟨hc, hl⟩ := pairwise_cons.1 h
    by_cases hp : p c = true
    · rw [find?_cons_of_pos hp, Option.some.injEq]
      constructor
      · rintro rfl
        refine ⟨mem_cons_self, hp, fun b hb _ => ?_⟩
        rcases mem_cons.1 hb with rfl | hb
        · exact fun hrb => hr _ _ hrb hrb
        · exact hr _ _ (hc b hb)
      · rintro ⟨ha, -, hleast⟩
        rcases mem_cons.1 ha with rfl | ha
        · rfl
        · exact absurd (hc a ha) (hleast c mem_cons_self hp)
    · rw [find?_cons_of_neg hp, ih hl]
      constructor
      · rintro ⟨ha, hpa, hleast⟩
        refine ⟨mem_cons_of_mem _ ha, hpa, fun b hb hpb => ?_⟩
        rcases mem_cons.1 hb with rfl | hb
        · exact absurd hpb hp
        · exact hleast b hb hpb
      · rintro ⟨ha, hpa, hleast⟩
        rcases mem_cons.1 ha with rfl | ha
        · exact absurd hpa hp
        · exact ⟨ha, hpa, fun b hb => hleast b (mem_cons_of_mem _ hb)⟩

end Firsts
