import Mathlib

/-!
# Lists that refer to each other

Named lists whose entries are leaves or references to other lists, and their expansion in place. An
expander goes down at most `left` levels and does not enter a list twice on one path; `check` is
the walk that fails where an expander would be cut off.

**Results.** `check` holds exactly when no path of references is too long or meets a list twice
(`check_iff_paths`); then an expander yields all leaves (`expand_eq_leaves`). Two readings of the
same entries, of which one may drop a leaf or take a reference for a leaf, yield the same leaves
only if they read every entry that is reached alike (`leaves_eq_iff`).
-/

namespace RefGraph

open List Sublist

variable {ι α ε : Type*}

inductive Item (ι α : Type*)
  | leaf (a : α)
  | ref (i : ι)

/-! ## Walks -/

section Check

variable [DecidableEq ι]

/-- No list is entered twice on a path, and none below the last level. -/
def check (refs : ι → List ι) : ℕ → List ι → ι → Bool
  | 0, _, _ => false
  | left + 1, visited, i =>
    !visited.contains i && (refs i).all fun j => check refs left (i :: visited) j

theorem check_succ {refs : ι → List ι} {left : ℕ} {visited : List ι} {i : ι} :
    check refs (left + 1) visited i = true ↔
      i ∉ visited ∧ ∀ j ∈ refs i, check refs left (i :: visited) j = true := by
  rw [check, Bool.and_eq_true, Bool.not_eq_true', all_eq_true, ← Bool.not_eq_true, contains_iff_mem]

/-- Fewer references are walked more easily. -/
theorem check_mono {refs refs' : ι → List ι} (h : ∀ i, refs' i ⊆ refs i) {left : ℕ}
    {visited : List ι} {i : ι} (hc : check refs left visited i = true) :
    check refs' left visited i = true := by
  induction left generalizing visited i with
  | zero => cases hc
  | succ left ih =>
    obtain ⟨hi, hall⟩ := check_succ.1 hc
    exact check_succ.2 ⟨hi, fun j hj => ih (hall j (h i hj))⟩

/-- The walk succeeds when every path of references is short and meets no list twice. -/
theorem check_iff_paths {refs : ι → List ι} {left : ℕ} {visited : List ι} {i : ι} :
    check refs left visited i = true ↔
      ∀ path, List.IsChain (fun a b => b ∈ refs a) (i :: path) →
        (i :: path).Nodup ∧ (∀ x ∈ i :: path, x ∉ visited) ∧ path.length < left := by
  induction left generalizing visited i with
  | zero =>
    refine ⟨fun h => (by cases h), fun h => ?_⟩
    exact absurd (h [] (isChain_singleton i)).2.2 (Nat.not_lt_zero _)
  | succ left ih =>
    rw [check_succ]
    constructor
    · rintro ⟨hi, hall⟩ path hchain
      cases path with
      | nil =>
        refine ⟨nodup_singleton i, fun x hx => ?_, Nat.succ_pos left⟩
        obtain rfl := mem_singleton.1 hx
        exact hi
      | cons j path =>
        obtain ⟨hj, hchain⟩ := isChain_cons_cons.1 hchain
        obtain ⟨hnodup, hfresh, hlen⟩ := (ih.1 (hall j hj)) path hchain
        refine ⟨nodup_cons.2 ⟨fun hmem => hfresh i hmem mem_cons_self, hnodup⟩,
          fun x hx => ?_, Nat.succ_lt_succ hlen⟩
        rcases mem_cons.1 hx with rfl | hx
        · exact hi
        · exact fun hv => hfresh x hx (.tail i hv)
    · intro hpaths
      refine ⟨(hpaths [] (isChain_singleton i)).2.1 i mem_cons_self, fun j hj => ?_⟩
      refine ih.2 fun path hchain => ?_
      obtain ⟨hnodup, hfresh, hlen⟩ := hpaths (j :: path) (isChain_cons_cons.2 ⟨hj, hchain⟩)
      obtain ⟨hi, hnodup⟩ := nodup_cons.1 hnodup
      refine ⟨hnodup, fun x hx hv => ?_, Nat.lt_of_succ_lt_succ hlen⟩
      rcases mem_cons.1 hv with rfl | hv
      · exact hi hx
      · exact hfresh x (.tail i hx) hv

end Check

/-! ## Expansion -/

/-- A reading of the entries of a list: what an entry is, if anything. -/
abbrev Reading (ι α ε : Type*) := ι → ε → Option (Item ι α)

section Expand

variable (entries : ι → List ε) (read : Reading ι α ε)

/-- The lists referred to. -/
def refs (i : ι) : List ι :=
  (entries i).filterMap fun e =>
    match read i e with
    | some (.ref j) => some j
    | _ => none

theorem mem_refs {i j : ι} :
    j ∈ refs entries read i ↔ ∃ e ∈ entries i, read i e = some (.ref j) := by
  rw [refs, mem_filterMap]
  refine exists_congr fun e => and_congr_right fun _ => ?_
  split
  · next h => rw [h, Option.some.injEq, Option.some.injEq, Item.ref.injEq]
  · next h => exact ⟨fun h => (by cases h), fun h' => absurd h' (h j)⟩

/-- The leaves of a list, expanded `left` levels down. -/
def leaves : ℕ → ι → List α
  | 0, _ => []
  | left + 1, i =>
    (entries i).flatMap fun e =>
      match read i e with
      | none => []
      | some (.leaf a) => [a]
      | some (.ref j) => leaves left j

/-- The leaves that one entry brings. -/
def entryLeaves (left : ℕ) (i : ι) (e : ε) : List α :=
  match read i e with
  | none => []
  | some (.leaf a) => [a]
  | some (.ref j) => leaves entries read left j

theorem leaves_succ (left : ℕ) (i : ι) :
    leaves entries read (left + 1) i = (entries i).flatMap (entryLeaves entries read left i) :=
  rfl

/-- An expander: below the last level it has `below`, a list that is on the path yields nothing. -/
def expand [DecidableEq ι] (below : List ι → ι → List α) : ℕ → List ι → ι → List α
  | 0, visited, i => below visited i
  | left + 1, visited, i =>
    if i ∈ visited then []
    else
      (entries i).flatMap fun e =>
        match read i e with
        | none => []
        | some (.leaf a) => [a]
        | some (.ref j) => expand below left (i :: visited) j

/-- Where the walk succeeds the expander is not cut off. -/
theorem expand_eq_leaves [DecidableEq ι] (below : List ι → ι → List α) {left : ℕ}
    {visited : List ι} {i : ι} (h : check (refs entries read) left visited i = true) :
    expand entries read below left visited i = leaves entries read left i := by
  induction left generalizing visited i with
  | zero => cases h
  | succ left ih =>
    obtain ⟨hi, hall⟩ := check_succ.1 h
    rw [expand, if_neg hi, leaves]
    refine flatMap_congr fun e he => ?_
    cases hread : read i e with
    | none => rfl
    | some item =>
      cases item with
      | leaf a => rfl
      | ref j => exact ih (hall j ((mem_refs entries read).2 ⟨e, he, hread⟩))

end Expand

/-! ## Two readings -/

/-- Lists that are parts of each other element by element are equal only element by element. -/
theorem eq_of_flatMap_eq {f g : ε → List α} {l : List ε} (hsub : ∀ e ∈ l, (f e).Sublist (g e))
    (h : l.flatMap f = l.flatMap g) : ∀ e ∈ l, f e = g e := by
  have hle : ∀ {l : List ε}, (∀ e ∈ l, (f e).Sublist (g e)) →
      (l.flatMap f).length ≤ (l.flatMap g).length := by
    intro l hl
    induction l with
    | nil => exact Nat.le_refl _
    | cons e l ih =>
      rw [flatMap_cons, flatMap_cons, length_append, length_append]
      exact Nat.add_le_add (hl e mem_cons_self).length_le (ih fun e' h' => hl e' (.tail _ h'))
  induction l with
  | nil => exact fun e he => by cases he
  | cons e l ih =>
    rw [flatMap_cons, flatMap_cons] at h
    have hhead := hsub e mem_cons_self
    have hrest := hle fun e' h' => hsub e' (.tail e h')
    have hlen : (f e).length = (g e).length := by
      have hsum := congrArg List.length h
      rw [length_append, length_append] at hsum
      have := hhead.length_le
      omega
    have heq := hhead.eq_of_length hlen
    rw [heq] at h
    intro e' he'
    rcases mem_cons.1 he' with rfl | he'
    · exact heq
    · exact ih (fun e' h' => hsub e' (.tail e h')) (append_cancel_left h) e' he'

section Readings

variable (entries : ι → List ε) (read₁ read₂ : Reading ι α ε) (reserved : α → Prop)

/-- The second reading may differ from the first by dropping a leaf that is not reserved, and by
taking a reference for a reserved leaf; the first has no reserved leaves. -/
structure Coarser : Prop where
  not_reserved : ∀ i, ∀ e ∈ entries i, ∀ a, read₁ i e = some (.leaf a) → ¬reserved a
  differ : ∀ i, ∀ e ∈ entries i, read₁ i e = read₂ i e ∨
    (∃ a, read₁ i e = some (.leaf a) ∧ read₂ i e = none) ∨
    (∃ j a, read₁ i e = some (.ref j) ∧ read₂ i e = some (.leaf a) ∧ reserved a)

variable {entries read₁ read₂ reserved}

section

variable (h : Coarser entries read₁ read₂ reserved)
include h

/-- The second reading has no references of its own. -/
theorem Coarser.refs_subset (i : ι) : refs entries read₂ i ⊆ refs entries read₁ i := by
  intro j hj
  obtain ⟨e, he, hread⟩ := (mem_refs _ _).1 hj
  rcases h.differ i e he with hsame | ⟨a, -, h₂⟩ | ⟨k, a, -, h₂, -⟩
  · exact (mem_refs _ _).2 ⟨e, he, hsame.trans hread⟩
  · rw [hread] at h₂
    cases h₂
  · rw [hread] at h₂
    cases h₂

/-- No leaf of the first reading is reserved. -/
theorem Coarser.leaves_not_reserved (left : ℕ) (i : ι) :
    ∀ a ∈ leaves entries read₁ left i, ¬reserved a := by
  induction left generalizing i with
  | zero => exact fun a ha => by cases ha
  | succ left ih =>
    intro a ha
    rw [leaves, mem_flatMap] at ha
    obtain ⟨e, he, ha⟩ := ha
    cases hread : read₁ i e with
    | none =>
      rw [hread] at ha
      cases ha
    | some item =>
      rw [hread] at ha
      cases item with
      | leaf b =>
        obtain rfl := mem_singleton.1 ha
        exact h.not_reserved i e he a hread
      | ref j => exact ih j a ha

/-- Where the second reading has no reserved leaf, an entry brings no more under it, and is not read
as a leaf instead of a reference. -/
theorem Coarser.entry_sublist {left : ℕ} {i : ι}
    (hleaves : ∀ j, (∀ a ∈ leaves entries read₂ left j, ¬reserved a) →
      (leaves entries read₂ left j).Sublist (leaves entries read₁ left j))
    (hnot : ∀ a ∈ leaves entries read₂ (left + 1) i, ¬reserved a) {e : ε} (he : e ∈ entries i) :
    (entryLeaves entries read₂ left i e).Sublist (entryLeaves entries read₁ left i e) ∧
      ¬∃ j a, read₁ i e = some (.ref j) ∧ read₂ i e = some (.leaf a) ∧ reserved a := by
  have hin : ∀ a ∈ entryLeaves entries read₂ left i e, ¬reserved a := fun a ha =>
    hnot a (mem_flatMap.2 ⟨e, he, ha⟩)
  unfold entryLeaves at hin ⊢
  rcases h.differ i e he with hsame | ⟨a, h₁, h₂⟩ | ⟨j, a, h₁, h₂, hres⟩
  · rw [hsame]
    refine ⟨?_, fun ⟨j, a, h₁, h₂, _⟩ => ?_⟩
    · cases h₂ : read₂ i e with
      | none => exact refl _
      | some item =>
        rw [h₂] at hin
        cases item with
        | leaf a => exact refl _
        | ref j => exact hleaves j hin
    · rw [h₁] at h₂
      cases h₂
  · rw [h₁, h₂]
    exact ⟨nil_sublist _, fun ⟨j, a', h', _⟩ => by cases h'⟩
  · rw [h₂] at hin
    exact absurd hres (hin a (mem_singleton_self a))

/-- Without reserved leaves the second reading has a part of the leaves of the first. -/
theorem Coarser.leaves_sublist {left : ℕ} {i : ι}
    (hnot : ∀ a ∈ leaves entries read₂ left i, ¬reserved a) :
    (leaves entries read₂ left i).Sublist (leaves entries read₁ left i) := by
  induction left generalizing i with
  | zero => exact refl _
  | succ left ih => exact Sublist.flatMap_right _ fun e he => (h.entry_sublist (fun _ => ih) hnot he).1

end

/-- The two readings agree on the entries of all lists that are reached. -/
def Agree (entries : ι → List ε) (read₁ read₂ : Reading ι α ε) (i : ι) : Prop :=
  ∀ j, Relation.ReflTransGen (fun a b => b ∈ refs entries read₂ a) i j →
    ∀ e ∈ entries j, read₁ j e = read₂ j e

theorem leaves_eq_of_agree {left : ℕ} {i : ι} (h : Agree entries read₁ read₂ i) :
    leaves entries read₁ left i = leaves entries read₂ left i := by
  induction left generalizing i with
  | zero => rfl
  | succ left ih =>
    rw [leaves, leaves]
    refine flatMap_congr fun e he => ?_
    rw [h i .refl e he]
    cases hread : read₂ i e with
    | none => rfl
    | some item =>
      cases item with
      | leaf a => rfl
      | ref j =>
        have hj : j ∈ refs entries read₂ i := (mem_refs _ _).2 ⟨e, he, hread⟩
        exact ih fun k hk => h k (.head hj hk)

/-- Equal leaves mean that every entry reached is read alike. -/
theorem Coarser.leaves_eq_iff [DecidableEq ι] (h : Coarser entries read₁ read₂ reserved)
    {left : ℕ} {visited : List ι} {i : ι}
    (hcheck : check (refs entries read₂) left visited i = true) :
    leaves entries read₁ left i = leaves entries read₂ left i ↔ Agree entries read₁ read₂ i := by
  refine ⟨fun heq => ?_, leaves_eq_of_agree⟩
  induction left generalizing visited i with
  | zero => cases hcheck
  | succ left ih =>
    obtain ⟨-, hall⟩ := check_succ.1 hcheck
    have hfree : ∀ a ∈ leaves entries read₂ (left + 1) i, ¬reserved a :=
      heq ▸ h.leaves_not_reserved (left + 1) i
    -- Entry by entry the second reading has a part of the first, so all of it.
    have hsub := fun e he => h.entry_sublist (e := e) (fun _ => h.leaves_sublist) hfree he
    rw [leaves_succ, leaves_succ] at heq
    have hentry := eq_of_flatMap_eq (fun e he => (hsub e he).1) heq.symm
    have hsame : ∀ e ∈ entries i, read₁ i e = read₂ i e := by
      intro e he
      rcases h.differ i e he with hsame | ⟨a, h₁, h₂⟩ | hdiff
      · exact hsame
      · have := hentry e he
        rw [entryLeaves, entryLeaves, h₁, h₂] at this
        cases this
      · exact absurd hdiff (hsub e he).2
    intro j hj e he
    rcases Relation.ReflTransGen.cases_head hj with rfl | ⟨k, hk, hkj⟩
    · exact hsame e he
    · obtain ⟨e', he', hread⟩ := (mem_refs _ _).1 hk
      have heq' := hentry e' he'
      rw [entryLeaves, entryLeaves, hsame e' he', hread] at heq'
      exact ih (hall k hk) heq'.symm j hkj e he

end Readings

end RefGraph
