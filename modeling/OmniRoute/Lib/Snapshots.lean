import Mathlib

/-!
# Buffers that take snapshots

A stream may send the parts of a text one by one, or send the whole text again with every part. A
buffer that cannot be told which takes a fragment for a snapshot when it begins with all that is
there (`grow`).

**Main result (`foldl_grow_eq_iff`).** The buffer ends as the concatenation of the fragments exactly
when no fragment begins with everything before it (`NoSnapshot`). What is sent on of every fragment
makes up the buffer in any case (`flatten_suffixes`).
-/

namespace Snapshots

open List

variable {α : Type*} [DecidableEq α] {b f : List α} {fs : List (List α)}

/-- A fragment that begins with the buffer replaces it, any other is appended. -/
def grow (existing next : List α) : List α :=
  if existing = [] then next
  else if next = [] then existing
  else if existing.isPrefixOf next then next
  else existing ++ next

/-- What each fragment adds to the buffer. -/
def suffixes : List α → List (List α) → List (List α)
  | _, [] => []
  | b, f :: fs => (grow b f).drop b.length :: suffixes (grow b f) fs

omit [DecidableEq α] in
/-- No fragment begins with all that comes before it. -/
def NoSnapshot (b : List α) (fs : List (List α)) : Prop :=
  ∀ pre f post, fs = pre ++ f :: post → b ++ pre.flatten ≠ [] → ¬b ++ pre.flatten <+: f

theorem prefix_grow (b f : List α) : b <+: grow b f := by
  unfold grow
  split
  · next h => exact h ▸ nil_prefix
  · split
    · exact prefix_refl b
    · split
      · next h => exact isPrefixOf_iff_prefix.1 h
      · exact List.prefix_append b f

theorem drop_grow (b f : List α) : b ++ (grow b f).drop b.length = grow b f := by
  obtain ⟨t, ht⟩ := prefix_grow b f
  rw [← ht, drop_left]

/-- A fragment is appended, unless it begins with a buffer that is not empty. -/
theorem grow_eq_append_iff (hf : f ≠ []) : grow b f = b ++ f ↔ (b ≠ [] → ¬b <+: f) := by
  unfold grow
  by_cases hb : b = []
  · rw [if_pos hb, hb]
    exact ⟨fun _ h => absurd rfl h, fun _ => rfl⟩
  · rw [if_neg hb, if_neg hf]
    by_cases hpre : b <+: f
    · rw [if_pos ( isPrefixOf_iff_prefix.2 hpre)]
      refine ⟨fun h => absurd (congrArg List.length h) ?_, fun h => absurd hpre (h hb)⟩
      have := length_pos_iff.2 hb
      rw [length_append]
      omega
    · rw [if_neg fun h => hpre ( isPrefixOf_iff_prefix.1 h)]
      exact ⟨fun _ _ => hpre, fun _ => rfl⟩

theorem length_grow_le (b f : List α) : (grow b f).length ≤ b.length + f.length := by
  unfold grow
  split_ifs <;> simp

/-- A snapshot makes the buffer shorter than the concatenation. -/
theorem length_grow_lt (h : grow b f ≠ b ++ f) : (grow b f).length < b.length + f.length := by
  unfold grow at h ⊢
  by_cases hb : b = []
  · rw [if_pos hb, hb] at h
    exact absurd rfl h
  · have hpos := length_pos_iff.2 hb
    rw [if_neg hb] at h ⊢
    by_cases hf : f = []
    · rw [if_pos hf, hf] at h
      exact absurd (append_nil b).symm h
    · rw [if_neg hf] at h ⊢
      by_cases hpre : b.isPrefixOf f = true
      · rw [if_pos hpre]
        omega
      · rw [if_neg hpre] at h
        exact absurd rfl h

theorem length_foldl_grow_le (b : List α) (fs : List (List α)) :
    (fs.foldl grow b).length ≤ b.length + fs.flatten.length := by
  induction fs generalizing b with
  | nil => simp
  | cons f fs ih =>
    have hstep := length_grow_le b f
    have hrest := ih (grow b f)
    rw [foldl_cons, flatten_cons, length_append]
    omega

omit [DecidableEq α] in
theorem noSnapshot_cons : NoSnapshot b (f :: fs) ↔
    (b ≠ [] → ¬b <+: f) ∧ NoSnapshot (b ++ f) fs := by
  constructor
  · intro h
    constructor
    · simpa using h [] f fs rfl
    · rintro pre g post rfl
      simpa using h (f :: pre) g post rfl
  · rintro ⟨hfirst, hrest⟩ pre g post heq
    cases pre with
    | nil =>
      obtain ⟨rfl, rfl⟩ := List.cons.inj heq
      simpa using hfirst
    | cons f' pre =>
      obtain ⟨rfl, rfl⟩ := List.cons.inj heq
      simpa using hrest pre g post rfl

/-- **The buffer is the concatenation exactly when no fragment looks like a snapshot.** -/
theorem foldl_grow_eq_iff (b : List α) (hne : ∀ f ∈ fs, f ≠ []) :
    fs.foldl grow b = b ++ fs.flatten ↔ NoSnapshot b fs := by
  induction fs generalizing b with
  | nil =>
    refine ⟨fun _ pre f post h => absurd h (by simp), fun _ => by simp⟩
  | cons f fs ih =>
    have hf := hne f mem_cons_self
    have ih := ih (b ++ f) fun g hg => hne g (.tail _ hg)
    rw [noSnapshot_cons, ← grow_eq_append_iff hf, ← ih, foldl_cons, flatten_cons]
    constructor
    · intro h
      have hgrow : grow b f = b ++ f := by
        -- Once shorter than the concatenation, the buffer stays so.
        by_contra hshort
        have hlt := length_grow_lt hshort
        have hrest := length_foldl_grow_le (grow b f) fs
        rw [h, length_append, length_append] at hrest
        omega
      rw [hgrow] at h
      exact ⟨hgrow, by rw [h, append_assoc]⟩
    · rintro ⟨hgrow, hrest⟩
      rw [hgrow, hrest, append_assoc]

/-- What is sent on makes up the buffer. -/
theorem flatten_suffixes (b : List α) (fs : List (List α)) :
    b ++ (suffixes b fs).flatten = fs.foldl grow b := by
  induction fs generalizing b with
  | nil => exact append_nil b
  | cons f fs ih =>
    rw [suffixes, flatten_cons, ← append_assoc, drop_grow, ih, foldl_cons]

end Snapshots
