import Mathlib

/-!
# Merging runs of equal keys

A loop over a list that joins every element to the last one of the result if their keys are equal,
and appends it otherwise. `mergeFrom last l` goes on with `last` as the last element so far.

Neighbours in the result have different keys (`isChain_merge`), and the result is one element for
each run of the source: whatever relates a run to what it is joined to, element by element, relates
the runs to the result (`merge_runs`).
-/

namespace MergeRuns

variable {α κ : Type*} [DecidableEq κ] (key : α → κ) (join : α → α → α)

def mergeFrom (last : α) : List α → List α
  | [] => [last]
  | a :: l => if key last = key a then mergeFrom (join last a) l else last :: mergeFrom a l

def merge : List α → List α
  | [] => []
  | a :: l => mergeFrom key join a l

variable {key join}

section

variable (hjoin : ∀ a b, key (join a b) = key a)
include hjoin

theorem head_mergeFrom (last : α) (l : List α) :
    ∃ b t, mergeFrom key join last l = b :: t ∧ key b = key last := by
  induction l generalizing last with
  | nil => exact ⟨last, [], rfl, rfl⟩
  | cons a l ih =>
    rw [mergeFrom]
    by_cases hkey : key last = key a
    · obtain ⟨b, t, hb, hkey'⟩ := ih (join last a)
      exact ⟨b, t, by rw [if_pos hkey, hb], hkey'.trans (hjoin last a)⟩
    · exact ⟨last, _, if_neg hkey, rfl⟩

theorem isChain_mergeFrom (last : α) (l : List α) :
    (mergeFrom key join last l).IsChain fun a b => key a ≠ key b := by
  induction l generalizing last with
  | nil => exact List.isChain_singleton last
  | cons a l ih =>
    rw [mergeFrom]
    by_cases hkey : key last = key a
    · rw [if_pos hkey]
      exact ih _
    · obtain ⟨b, t, hb, hkey'⟩ := head_mergeFrom hjoin a l
      have hrest := ih a
      rw [if_neg hkey, hb]
      rw [hb] at hrest
      exact List.IsChain.cons_cons (by rwa [hkey']) hrest

/-- Neighbours have different keys. -/
theorem isChain_merge (l : List α) : (merge key join l).IsChain fun a b => key a ≠ key b := by
  cases l with
  | nil => exact List.isChain_nil
  | cons a l => exact isChain_mergeFrom hjoin a l

end

theorem mergeFrom_runs {R : List α → α → Prop} {l : List α} (hone : ∀ a ∈ l, R [a] a)
    (hstep : ∀ run b, ∀ a ∈ l, R run b → key b = key a → R (run ++ [a]) (join b a))
    {run : List α} {last : α} (h : R run last) :
    ∃ runs, runs.flatten = run ++ l ∧ List.Forall₂ R runs (mergeFrom key join last l) := by
  induction l generalizing run last with
  | nil => exact ⟨[run], by simp, .cons h .nil⟩
  | cons a l ih =>
    have hrest := fun {run last} => @ih (fun b hb => hone b (.tail _ hb))
      (fun run b c hc => hstep run b c (.tail _ hc)) run last
    rw [mergeFrom]
    by_cases hkey : key last = key a
    · obtain ⟨runs, hruns, hall⟩ := hrest (hstep run last a List.mem_cons_self h hkey)
      refine ⟨runs, by rw [hruns, List.append_assoc]; rfl, ?_⟩
      rwa [if_pos hkey]
    · obtain ⟨runs, hruns, hall⟩ := hrest (hone a List.mem_cons_self)
      refine ⟨run :: runs, by rw [List.flatten_cons, hruns]; rfl, ?_⟩
      rw [if_neg hkey]
      exact .cons h hall

/-- The result has an element for each run. -/
theorem merge_runs {R : List α → α → Prop} {l : List α} (hone : ∀ a ∈ l, R [a] a)
    (hstep : ∀ run b, ∀ a ∈ l, R run b → key b = key a → R (run ++ [a]) (join b a)) :
    ∃ runs, runs.flatten = l ∧ List.Forall₂ R runs (merge key join l) := by
  cases l with
  | nil => exact ⟨[], rfl, .nil⟩
  | cons a l =>
    exact mergeFrom_runs (fun b hb => hone b (.tail _ hb))
      (fun run b c hc => hstep run b c (.tail _ hc)) (hone a List.mem_cons_self)

end MergeRuns
