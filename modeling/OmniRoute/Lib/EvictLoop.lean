import Mathlib

/-!
# Loops that evict while a bound is exceeded

A store that is over a bound evicts until it is not, or until nothing is left to evict. The loop
is given a number of rounds; each eviction makes the store smaller, so as many rounds as the
store has entries are enough.
-/

namespace EvictLoop

variable {σ : Type*} {full : σ → Prop} [DecidablePred full] {evict : σ → Option σ}

/-- `rounds` rounds of `while (full) evict()`. -/
structure IsLoop (full : σ → Prop) [DecidablePred full] (evict : σ → Option σ)
    (loop : ℕ → σ → σ) : Prop where
  zero : ∀ s, loop 0 s = s
  succ : ∀ rounds s, loop (rounds + 1) s = if full s then (evict s).elim s (loop rounds) else s

variable {loop : ℕ → σ → σ} {I : σ → Prop} {s : σ}

/-- What every eviction keeps, the loop keeps. -/
theorem IsLoop.invariant (h : IsLoop full evict loop)
    (hI : ∀ s t, I s → evict s = some t → I t) (rounds : ℕ) (hs : I s) : I (loop rounds s) := by
  induction rounds generalizing s with
  | zero => rwa [h.zero]
  | succ rounds ih =>
    rw [h.succ]
    split
    · cases hevict : evict s with
      | none => exact hs
      | some t => exact ih (hI s t hs hevict)
    · exact hs

/-- With enough rounds the bound is met in the end, or there is nothing left to evict. -/
theorem IsLoop.done (h : IsLoop full evict loop) (size : σ → ℕ)
    (hempty : ∀ s, size s = 0 → evict s = none)
    (hsize : ∀ s t, evict s = some t → size t < size s) (rounds : ℕ) (hrounds : size s ≤ rounds) :
    ¬full (loop rounds s) ∨ evict (loop rounds s) = none := by
  induction rounds generalizing s with
  | zero =>
    rw [h.zero]
    exact .inr (hempty s (Nat.le_zero.1 hrounds))
  | succ rounds ih =>
    rw [h.succ]
    split
    · cases hevict : evict s with
      | none => exact .inr hevict
      | some t => exact ih (Nat.le_of_lt_succ ((hsize s t hevict).trans_le hrounds))
    · next hfull => exact .inl hfull

end EvictLoop
