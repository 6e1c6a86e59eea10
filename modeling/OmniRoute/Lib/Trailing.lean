import Mathlib

/-!
# Counting in trailing windows

A limiter allows so many hits in each window of a given length that ends at some time, and keeps
only the hits it still has to count. Hits carry a `time`; `after` are those later than a cutoff, and
`within` those in the half-open window that ends at a time.

* `Limited.push`: a list stays limited when a hit is added for which its own window has room.
* `Agree`: a list that was pruned still has what counts from a cutoff on; pruning it further,
  adding to it and removing from it keep this.
-/

namespace Trailing

open List

variable {α τ : Type*} [LinearOrder τ] {time : α → τ}

/-- The hits later than a cutoff. -/
def after (time : α → τ) (cutoff : τ) (hits : List α) : List α :=
  hits.filter fun hit => cutoff < time hit

/-- From a cutoff on, `kept` has all of `hits`. -/
def Agree (time : α → τ) (cutoff : τ) (kept hits : List α) : Prop :=
  ∀ c, cutoff ≤ c → after time c kept = after time c hits

/-! ## Pruned lists -/

theorem after_append (cutoff : τ) (hits hits' : List α) :
    after time cutoff (hits ++ hits') = after time cutoff hits ++ after time cutoff hits' :=
  filter_append ..

theorem after_sublist (time : α → τ) (cutoff : τ) (hits : List α) :
    (after time cutoff hits).Sublist hits :=
  filter_sublist

variable {hits : List α}

theorem lt_of_mem_after {cutoff : τ} {hit : α} (h : hit ∈ after time cutoff hits) :
    cutoff < time hit :=
  of_decide_eq_true (mem_filter.1 h).2

theorem after_after {c c' : τ} (h : c ≤ c') (hits : List α) :
    after time c' (after time c hits) = after time c' hits := by
  rw [after, after, filter_filter]
  refine filter_congr fun hit _ => ?_
  by_cases hhit : c' < time hit
  · simp [hhit, h.trans_lt hhit]
  · simp [hhit]

theorem Agree.refl (cutoff : τ) (hits : List α) : Agree time cutoff hits hits := fun _ _ => rfl

variable {kept : List α}

theorem Agree.later {c c' : τ} (h : Agree time c kept hits) (hle : c ≤ c') :
    Agree time c' kept hits := fun d hd => h d (hle.trans hd)

theorem Agree.prune {c : τ} (h : Agree time c kept hits) :
    Agree time c (after time c kept) hits := by
  intro d hd
  rw [after_after hd]
  exact h d hd

theorem Agree.append {c : τ} (h : Agree time c kept hits) (new : List α) :
    Agree time c (kept ++ new) (hits ++ new) := by
  intro d hd
  rw [after_append, after_append, h d hd]

theorem Agree.filter {c : τ} (h : Agree time c kept hits) (p : α → Bool) :
    Agree time c (kept.filter p) (hits.filter p) := by
  have hcomm : ∀ (d : τ) (l : List α), after time d (l.filter p) = (after time d l).filter p := by
    intro d l
    rw [after, after, filter_filter, filter_filter]
    exact filter_congr fun hit _ => Bool.and_comm ..
  intro d hd
  rw [hcomm, hcomm, h d hd]

/-! ## Limits -/

variable [AddCommGroup τ]

/-- The hits in the window of a length that ends at a time. -/
def within (time : α → τ) (length t : τ) (hits : List α) : List α :=
  hits.filter fun hit => t - length < time hit ∧ time hit ≤ t

/-- No window of the length has more than `n` hits. -/
def Limited (time : α → τ) (length : τ) (n : ℕ) (hits : List α) : Prop :=
  ∀ t, (within time length t hits).length ≤ n

theorem limited_nil (length : τ) (n : ℕ) : Limited time length n [] := fun _ => Nat.zero_le n

theorem Limited.sublist {length : τ} {n : ℕ} {hits' : List α} (h : Limited time length n hits)
    (hsub : hits'.Sublist hits) : Limited time length n hits' :=
  fun t => (hsub.filter _).length_le.trans (h t)

/-- When no hit is later than `now`, the window that ends there has all hits after its start. -/
theorem within_eq_after {length now : τ} (h : ∀ hit ∈ hits, time hit ≤ now) :
    within time length now hits = after time (now - length) hits := by
  refine filter_congr fun hit hmem => ?_
  simp [h hit hmem]

/-- A hit is added when there is room in its own window and later. -/
theorem Limited.push [IsOrderedAddMonoid τ] {length : τ} {n : ℕ} {new : α}
    (h : Limited time length n hits) (hroom : (after time (time new - length) hits).length < n) :
    Limited time length n (hits ++ [new]) := by
  intro t
  rw [within, filter_append, length_append]
  by_cases hnew : t - length < time new ∧ time new ≤ t
  · -- the window holds the new hit, and what else it holds is in the new hit's own window
    have hsub : ((within time length t hits).Sublist (after time (time new - length) hits)) := by
      refine monotone_filter_right hits fun hit hhit => ?_
      simp only [decide_eq_true_eq] at hhit ⊢
      exact (sub_le_sub_right hnew.2 length).trans_lt hhit.1
    have hle := hsub.length_le
    rw [filter_cons_of_pos (by simpa using hnew), filter_nil, length_singleton]
    exact Nat.succ_le_of_lt (hle.trans_lt hroom)
  · rw [filter_cons_of_neg (by simpa using hnew), filter_nil]
    exact h t

end Trailing
