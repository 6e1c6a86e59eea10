import Mathlib

/-!
# Passes that look one element ahead

A pass over a list that replaces every element by a list which depends on the element and on the
one after it, if there is one: inserting, dropping and rewriting are all of this kind. `pass f l z`
is the pass by `f` over a part `l` of a list that goes on with `z`.

A pass over a concatenation is the two passes (`pass_append`), so what stands before and after an
element of the result is read off the split of the source it comes from (`suffix_pass`), and the
run of elements with some property at the head of a result off the run in the source
(`takeWhile_pass`).
-/

namespace Lookahead

open List

variable {α β γ : Type*} (f : α → Option α → List β)

def pass : List α → Option α → List β
  | [], _ => []
  | a :: l, z => f a (l.head?.or z) ++ pass l z

@[simp] theorem pass_nil (z : Option α) : pass f [] z = [] := rfl

@[simp] theorem pass_cons (a : α) (l : List α) (z : Option α) :
    pass f (a :: l) z = f a (l.head?.or z) ++ pass f l z := rfl

theorem pass_append (l₁ l₂ : List α) (z : Option α) :
    pass f (l₁ ++ l₂) z = pass f l₁ (l₂.head?.or z) ++ pass f l₂ z := by
  induction l₁ with
  | nil => rfl
  | cons a l ih =>
    rw [cons_append, pass_cons, pass_cons, ih, append_assoc]
    cases l <;> rfl

/-- A second rewriting of every element belongs to the pass. -/
theorem flatMap_pass (g : β → List γ) (l : List α) (z : Option α) :
    (pass f l z).flatMap g = pass (fun a next => (f a next).flatMap g) l z := by
  induction l with
  | nil => rfl
  | cons a l ih => rw [pass_cons, pass_cons, flatMap_append, ih]

variable {l : List α} {z : Option α}

/-- A pass that does not look ahead. -/
theorem pass_eq_flatMap {g : α → List β} (h : ∀ a ∈ l, ∀ next, f a next = g a) :
    pass f l z = l.flatMap g := by
  induction l with
  | nil => rfl
  | cons a l ih =>
    rw [pass_cons, flatMap_cons, h a mem_cons_self, ih fun b hb => h b (.tail _ hb)]

theorem pass_congr {f f' : α → Option α → List β}
    (h : ∀ a t, a :: t <:+ l → f a (t.head?.or z) = f' a (t.head?.or z)) :
    pass f l z = pass f' l z := by
  induction l with
  | nil => rfl
  | cons a l ih =>
    have hrest := ih fun b t hb => h b t (hb.trans (suffix_cons a l))
    rw [pass_cons, pass_cons, h a l (suffix_refl _), hrest]

/-- A pass that changes nothing. -/
theorem pass_eq_self {f : α → Option α → List α}
    (h : ∀ a t, a :: t <:+ l → f a (t.head?.or z) = [a]) : pass f l z = l := by
  induction l with
  | nil => rfl
  | cons a l ih =>
    have hrest := ih fun b t hb => h b t (hb.trans (suffix_cons a l))
    rw [pass_cons, h a l (suffix_refl _), hrest]
    rfl

theorem mem_pass {b : β} (h : b ∈ pass f l z) : ∃ a t, a :: t <:+ l ∧ b ∈ f a (t.head?.or z) := by
  induction l with
  | nil => cases h
  | cons a l ih =>
    rcases mem_append.1 h with h | h
    · exact ⟨a, l, suffix_refl _, h⟩
    · obtain ⟨a', t, ht, hb⟩ := ih h
      exact ⟨a', t, ht.trans (suffix_cons a l), hb⟩

theorem mem_pass_of {b : β} {t : List α} {a : α} (ht : a :: t <:+ l) (h : b ∈ f a (t.head?.or z)) :
    b ∈ pass f l z := by
  obtain ⟨pre, rfl⟩ := ht
  rw [pass_append]
  exact mem_append_right _ (mem_append_left _ h)

/-- Where an element of the result comes from, and what follows it. -/
theorem suffix_pass {b : β} {s : List β} (h : b :: s <:+ pass f l z) :
    ∃ a t u v, a :: t <:+ l ∧ f a (t.head?.or z) = u ++ b :: v ∧ s = v ++ pass f t z := by
  induction l with
  | nil => simp at h
  | cons a l ih =>
    obtain ⟨pre, hpre⟩ := h
    rw [pass_cons] at hpre
    rcases append_eq_append_iff.1 hpre with ⟨u, hu, htail⟩ | ⟨u, hu, htail⟩
    · cases u with
      | nil =>
        obtain ⟨a', t, u, v, ht, hf, hs⟩ := ih ⟨[], htail⟩
        exact ⟨a', t, u, v, ht.trans (suffix_cons a l), hf, hs⟩
      | cons b' v =>
        obtain ⟨rfl, rfl⟩ := List.cons.inj htail
        exact ⟨a, l, pre, v, suffix_refl _, hu, rfl⟩
    · obtain ⟨a', t, u, v, ht, hf, hs⟩ := ih ⟨u, htail.symm⟩
      exact ⟨a', t, u, v, ht.trans (suffix_cons a l), hf, hs⟩

theorem pass_suffix {a : α} {t : List α} (ht : a :: t <:+ l) :
    f a (t.head?.or z) ++ pass f t z <:+ pass f l z := by
  obtain ⟨pre, rfl⟩ := ht
  rw [pass_append]
  exact suffix_append _ _

/-- The run at the head of a result: the source's run, if the pass rewrites its elements to
elements of the run and the one after it to a list that begins outside the run. -/
theorem takeWhile_pass {p : α → Bool} {q : β → Bool} {g : α → List β}
    (hin : ∀ a ∈ l, ∀ next, p a = true → f a next = g a ∧ ∀ b ∈ g a, q b = true)
    (hout : ∀ a ∈ l, ∀ next, p a = false → ∃ b s, f a next = b :: s ∧ q b = false) (z : Option α) :
    (pass f l z).takeWhile q = (l.takeWhile p).flatMap g := by
  induction l with
  | nil => rfl
  | cons a l ih =>
    have hrest := ih (fun b hb => hin b (.tail _ hb)) (fun b hb => hout b (.tail _ hb))
    rw [pass_cons]
    by_cases ha : p a = true
    · obtain ⟨hg, hq⟩ := hin a mem_cons_self (l.head?.or z) ha
      rw [takeWhile_cons_of_pos ha, flatMap_cons, hg, takeWhile_append_of_pos hq, hrest]
    · rw [Bool.not_eq_true] at ha
      obtain ⟨b, s, hb, hq⟩ := hout a mem_cons_self (l.head?.or z) ha
      rw [hb, takeWhile_cons_of_neg (by simp [ha]), cons_append,
        takeWhile_cons_of_neg (by simp [hq])]
      rfl

/-- What every step keeps, the pass keeps. -/
theorem sublist_flatMap_pass {h : α → List γ} {g : β → List γ}
    (hstep : ∀ a ∈ l, ∀ next, (h a).Sublist ((f a next).flatMap g)) (z : Option α) :
    (l.flatMap h).Sublist ((pass f l z).flatMap g) := by
  induction l with
  | nil => exact List.Sublist.refl _
  | cons a l ih =>
    rw [pass_cons, flatMap_cons, flatMap_append]
    exact (hstep a mem_cons_self _).append (ih fun b hb => hstep b (.tail _ hb))

/-- What no step adds, the pass does not add. -/
theorem flatMap_pass_sublist {h : α → List γ} {g : β → List γ}
    (hstep : ∀ a ∈ l, ∀ next, ((f a next).flatMap g).Sublist (h a)) (z : Option α) :
    ((pass f l z).flatMap g).Sublist (l.flatMap h) := by
  induction l with
  | nil => exact List.Sublist.refl _
  | cons a l ih =>
    rw [pass_cons, flatMap_cons, flatMap_append]
    exact (hstep a mem_cons_self _).append (ih fun b hb => hstep b (.tail _ hb))

/-! ## Filters -/

/-- Where an element of a filtered list comes from, and what follows it. -/
theorem suffix_filterMap {g : α → Option β} {b : β} {s : List β} (h : b :: s <:+ l.filterMap g) :
    ∃ a t, a :: t <:+ l ∧ g a = some b ∧ s = t.filterMap g := by
  induction l with
  | nil => simp at h
  | cons a l ih =>
    have hrest : b :: s <:+ l.filterMap g →
        ∃ a' t, a' :: t <:+ a :: l ∧ g a' = some b ∧ s = t.filterMap g := fun h => by
      obtain ⟨a', t, ht, hb⟩ := ih h
      exact ⟨a', t, ht.trans (suffix_cons a l), hb⟩
    cases ha : g a with
    | none =>
      rw [filterMap_cons_none ha] at h
      exact hrest h
    | some b' =>
      rw [filterMap_cons_some ha, suffix_cons_iff] at h
      rcases h with h | h
      · obtain ⟨rfl, rfl⟩ := List.cons.inj h
        exact ⟨a, l, suffix_refl _, ha, rfl⟩
      · exact hrest h

theorem head?_filterMap_eq (g : α → Option β) (l : List α) :
    (l.filterMap g).head? = (l.find? fun a => (g a).isSome).bind g := by
  induction l with
  | nil => rfl
  | cons a l ih =>
    cases ha : g a with
    | none => rw [filterMap_cons_none ha, ih, find?_cons_of_neg (by simp [ha])]
    | some b =>
      rw [filterMap_cons_some ha, find?_cons_of_pos (by simp [ha])]
      exact ha.symm

end Lookahead
