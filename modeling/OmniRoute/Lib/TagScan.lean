import Mathlib

/-!
# Text cut at two tags in turn

A text in which an opening and a closing tag alternate is cut, from left to right, into the pieces
between the tags: what stands outside of them and what stands inside, in turn (`pieces`). The tag
that is looked for depends on the side, so a stray one of the other kind is text.

`Clear tag a b` says that no occurrence of the tag in `a ++ b` begins in `a`. A clear part goes to
the first piece (`pieces_append`), and behind a tag the other side begins (`pieces_tag`). What can be
said of a part of a text that does not hold the tag is said by `clear_of_indexOf_none` (all of it
but an end shorter than the tag) and `clear_of_ends` (all of it, when it does not end with a
beginning of the tag).
-/

namespace TagScan

open List

variable {α : Type*}

/-- No occurrence of the tag begins in the first part. -/
def Clear (tag : List α) : List α → List α → Prop
  | [], _ => True
  | c :: a, b => ¬ tag <+: c :: (a ++ b) ∧ Clear tag a b

/-- The pieces of one side, the first of which is the first (`true`) or the second (`false`). -/
def everyOther {β : Type*} : Bool → List β → List β
  | _, [] => []
  | true, p :: ps => p :: everyOther false ps
  | false, _ :: ps => everyOther true ps

/-- The pieces with the tags between them. -/
def weave (tag : Bool → List α) : Bool → List (List α) → List α
  | _, [] => []
  | _, [p] => p
  | side, p :: q :: ps => p ++ (tag side ++ weave tag (!side) (q :: ps))

variable {tag a b l r : List α} {c : α} {i : ℕ}

/-! ## Clear parts -/

theorem prefix_of_prefix_append (h : tag <+: l ++ r) (hlen : tag.length ≤ l.length) : tag <+: l :=
  prefix_of_prefix_length_le h (prefix_append l r) hlen

/-- Without the tag in it, and without a beginning of the tag at its end, a text is clear. -/
theorem clear_of_ends (hnone : ¬ tag <:+: a)
    (hends : ∀ p, p <+: tag → p ≠ tag → p ≠ [] → ¬ p <:+ a) (r : List α) : Clear tag a r := by
  induction a with
  | nil => trivial
  | cons c a ih =>
    rw [infix_cons_iff, not_or] at hnone
    refine ⟨fun hr => ?_, ih hnone.2 fun p hp hne hnil hsuf =>
      hends p hp hne hnil (hsuf.trans (suffix_cons c a))⟩
    rw [← cons_append] at hr
    rcases prefix_or_prefix_of_prefix hr (prefix_append (c :: a) r) with hp | hp
    · exact hnone.1 hp
    · by_cases heq : c :: a = tag
      · exact hnone.1 (heq ▸ prefix_refl _)
      · exact hends (c :: a) hp heq (cons_ne_nil c a) (suffix_refl _)

/-- A text without the tag is clear in front of the tag when no other character of the tag is its
first. -/
theorem clear_before_tag {t : List α} (hc : c ∉ t) (h : ¬ (c :: t) <:+: a) :
    Clear (c :: t) a (c :: t ++ b) := by
  induction a with
  | nil => trivial
  | cons d a ih =>
    rw [infix_cons_iff, not_or] at h
    refine ⟨fun hr => ?_, ih h.2⟩
    rw [← cons_append] at hr
    rcases prefix_or_prefix_of_prefix hr (prefix_append (d :: a) _) with hp | ⟨u, hu⟩
    · exact h.1 hp
    · cases u with
      | nil =>
        rw [append_nil] at hu
        exact h.1 (hu ▸ prefix_refl _)
      | cons e u =>
        -- the tag goes on behind the text with its own first character
        rw [← hu, prefix_append_right_inj, hu] at hr
        obtain ⟨rfl, -⟩ := cons_prefix_cons.1 hr
        obtain ⟨rfl, ht⟩ := cons.inj hu
        exact hc (ht ▸ mem_append_right a mem_cons_self)

/-- A clear part does not hold the tag. -/
theorem Clear.not_infix (h : Clear tag a b) (htag : tag ≠ []) : ¬ tag <:+: a := by
  induction a with
  | nil => exact fun hin => htag (infix_nil.1 hin)
  | cons c a ih =>
    rw [infix_cons_iff, not_or]
    refine ⟨fun hp => h.1 ?_, ih h.2⟩
    rw [← cons_append]
    exact hp.trans (prefix_append _ _)

theorem clear_nil (h : ¬ tag <:+: a) : Clear tag a [] := by
  induction a with
  | nil => trivial
  | cons c a ih =>
    rw [infix_cons_iff, not_or] at h
    rw [Clear, append_nil]
    exact ⟨h.1, ih h.2⟩

variable [DecidableEq α]

/-! ## Where a tag occurs -/

/-- Where the tag occurs first. -/
def indexOf (tag : List α) : List α → Option ℕ
  | [] => if tag = [] then some 0 else none
  | c :: l => if tag <+: c :: l then some 0 else (indexOf tag l).map fun i => i + 1

theorem indexOf_eq_none_iff : indexOf tag l = none ↔ ¬ tag <:+: l := by
  induction l with
  | nil =>
    unfold indexOf
    by_cases htag : tag = []
    · rw [if_pos htag, htag]
      exact ⟨nofun, fun h => absurd (infix_refl _) h⟩
    · rw [if_neg htag]
      exact ⟨fun _ h => htag (infix_nil.1 h), fun _ => rfl⟩
  | cons c l ih =>
    unfold indexOf
    rw [infix_cons_iff]
    by_cases hpre : tag <+: c :: l
    · rw [if_pos hpre]
      exact ⟨nofun, fun h => absurd (.inl hpre) h⟩
    · rw [if_neg hpre, Option.map_eq_none_iff, ih]
      exact ⟨fun h => not_or.2 ⟨hpre, h⟩, fun h => (not_or.1 h).2⟩

/-- The first occurrence: what stands in front of it is clear, whatever follows. -/
theorem indexOf_eq_some (h : indexOf tag l = some i) :
    ∃ a b, l = a ++ (tag ++ b) ∧ a.length = i ∧ ∀ r, Clear tag a (tag ++ b ++ r) := by
  induction l generalizing i with
  | nil =>
    unfold indexOf at h
    split at h
    · next htag =>
      cases h
      exact ⟨[], [], by rw [htag]; rfl, rfl, fun _ => trivial⟩
    · exact absurd h nofun
  | cons c l ih =>
    unfold indexOf at h
    split at h
    · next hpre =>
      cases h
      obtain ⟨b, hb⟩ := hpre
      exact ⟨[], b, hb.symm, rfl, fun _ => trivial⟩
    · next hpre =>
      obtain ⟨k, hk, rfl⟩ := Option.map_eq_some_iff.1 h
      obtain ⟨a, b, hl, ha, hclear⟩ := ih hk
      refine ⟨c :: a, b, by rw [hl]; rfl, by rw [length_cons, ha], fun r => ⟨fun hr => ?_,
        hclear r⟩⟩
      refine hpre (prefix_of_prefix_append (r := r) ?_ ?_)
      · rw [hl]
        simpa using hr
      · rw [hl]
        simp only [length_cons, length_append]
        omega

/-- A clear part is skipped. -/
theorem indexOf_append (h : Clear tag a b) :
    indexOf tag (a ++ b) = (indexOf tag b).map fun i => a.length + i := by
  induction a with
  | nil =>
    cases hi : indexOf tag b with
    | none => rw [nil_append, hi]; rfl
    | some i => rw [nil_append, hi, Option.map_some, length_nil, Nat.zero_add]
  | cons c a ih =>
    rw [cons_append, indexOf, if_neg h.1, ih h.2, Option.map_map, length_cons]
    congr 1
    funext i
    show a.length + i + 1 = a.length + 1 + i
    omega

theorem indexOf_tag (htag : tag ≠ []) (b : List α) : indexOf tag (tag ++ b) = some 0 := by
  cases htb : tag ++ b with
  | nil => exact absurd (append_eq_nil_iff.1 htb).1 htag
  | cons c l => rw [indexOf, if_pos (htb ▸ prefix_append tag b)]

theorem indexOf_clear (htag : tag ≠ []) (h : Clear tag a (tag ++ b)) :
    indexOf tag (a ++ (tag ++ b)) = some a.length := by
  rw [indexOf_append h, indexOf_tag htag, Option.map_some, Nat.add_zero]

/-- Without the tag in it, a text is clear up to an end that is shorter than the tag. -/
theorem clear_of_indexOf_none (h : indexOf tag (a ++ b) = none) (hlen : tag.length ≤ b.length + 1)
    (r : List α) : Clear tag a (b ++ r) := by
  induction a with
  | nil => trivial
  | cons c a ih =>
    rw [indexOf_eq_none_iff, cons_append, infix_cons_iff, not_or] at h
    refine ⟨fun hr => h.1 (prefix_of_prefix_append (r := r) ?_ ?_),
      ih (indexOf_eq_none_iff.2 h.2)⟩
    · simpa using hr
    · simp only [length_cons, length_append]
      omega

/-! ## The pieces -/

/-- The pieces of a text between the tags, from a side on, with how much of a tag is to be skipped. -/
def pieces (tag : Bool → List α) : Bool → ℕ → List α → List (List α)
  | _, _, [] => [[]]
  | side, skip + 1, _ :: l => pieces tag side skip l
  | side, 0, c :: l =>
    if tag side <+: c :: l then [] :: pieces tag (!side) ((tag side).length - 1) l
    else (pieces tag side 0 l).modifyHead (c :: ·)

section Pieces

variable {tag : Bool → List α} {side : Bool} {x y : List α}

/-- A clear part belongs to the first piece. -/
theorem pieces_append (h : Clear (tag side) x y) :
    pieces tag side 0 (x ++ y) = (pieces tag side 0 y).modifyHead (x ++ ·) := by
  induction x with
  | nil =>
    show pieces tag side 0 y = (pieces tag side 0 y).modifyHead id
    rw [modifyHead_id]
    rfl
  | cons c x ih =>
    rw [cons_append, pieces, if_neg h.1, ih h.2, modifyHead_modifyHead]
    rfl

theorem pieces_skip (x y : List α) : pieces tag side x.length (x ++ y) = pieces tag side 0 y := by
  induction x with
  | nil => rfl
  | cons c x ih =>
    rw [cons_append, length_cons, pieces, ih]

/-- Behind a tag the other side begins. -/
theorem pieces_tag (htag : tag side ≠ []) (y : List α) :
    pieces tag side 0 (tag side ++ y) = [] :: pieces tag (!side) 0 y := by
  cases ht : tag side with
  | nil => exact absurd ht htag
  | cons c t =>
    rw [cons_append, pieces, ht, ← cons_append, if_pos (prefix_append _ _)]
    simp only [length_cons, Nat.add_sub_cancel]
    rw [pieces_skip]

theorem pieces_of_clear (h : Clear (tag side) x []) : pieces tag side 0 x = [x] := by
  have happ := pieces_append h
  rw [append_nil] at happ
  rw [happ]
  simp [pieces]

/-- A text is one piece, or a piece and a tag and a text of the other side. -/
theorem pieces_cases (htag : tag side ≠ []) (l : List α) :
    (indexOf (tag side) l = none ∧ pieces tag side 0 l = [l]) ∨
    ∃ x y, l = x ++ (tag side ++ y) ∧ Clear (tag side) x (tag side ++ y) ∧
      pieces tag side 0 l = x :: pieces tag (!side) 0 y := by
  cases hi : indexOf (tag side) l with
  | none => exact .inl ⟨rfl, pieces_of_clear (clear_nil (indexOf_eq_none_iff.1 hi))⟩
  | some i =>
    obtain ⟨x, y, hl, -, hclear⟩ := indexOf_eq_some hi
    have hx := hclear []
    rw [append_nil] at hx
    refine .inr ⟨x, y, hl, hx, ?_⟩
    rw [hl, pieces_append hx, pieces_tag htag, modifyHead_cons, append_nil]

theorem pieces_ne_nil (htag : ∀ side, tag side ≠ []) (l : List α) : pieces tag side 0 l ≠ [] := by
  rcases pieces_cases (htag side) l with ⟨-, h⟩ | ⟨x, y, -, -, h⟩
  · rw [h]
    exact cons_ne_nil _ _
  · rw [h]
    exact cons_ne_nil _ _

/-- The pieces with the tags between them are the text. -/
theorem weave_pieces (htag : ∀ side, tag side ≠ []) (side : Bool) (l : List α) :
    weave tag side (pieces tag side 0 l) = l := by
  induction hn : l.length using Nat.strong_induction_on generalizing side l with
  | _ n ih =>
    rcases pieces_cases (htag side) l with ⟨-, h⟩ | ⟨x, y, hl, -, h⟩
    · rw [h]
      rfl
    · have hlt : y.length < n := by
        have hpos := length_pos_iff.2 (htag side)
        rw [← hn, hl]
        simp only [length_append]
        omega
      have hy := ih y.length hlt (!side) y rfl
      rw [h]
      cases hp : pieces tag (!side) 0 y with
      | nil => exact absurd hp (pieces_ne_nil htag y)
      | cons q ps =>
        rw [hp] at hy
        rw [weave, hy, ← hl]

end Pieces

end TagScan
