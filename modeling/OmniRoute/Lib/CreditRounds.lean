import Mathlib

/-!
# Rounds of credit

In a round every member of a finite set gains its share of one unit of credit, and a member that
then has the most credit is served and pays the unit.

**Main results (`Balanced.round`, `Balanced.credit_lt`).** From no credit the credits always sum to
zero and each is above `-1`, hence below the number of the others: how often a member is served
stays that close to its share of the rounds.
-/

namespace CreditRounds

open Finset

variable {ι K : Type*} [DecidableEq ι] [Field K] [LinearOrder K] [IsStrictOrderedRing K]
  {s : Finset ι} {share credit credit' : ι → K} {winner : ι}

/-- A round that serves `winner`. -/
structure Round (s : Finset ι) (share credit : ι → K) (winner : ι) (credit' : ι → K) : Prop where
  mem : winner ∈ s
  most : ∀ i ∈ s, credit i + share i ≤ credit winner + share winner
  pays : ∀ i ∈ s, credit' i = credit i + share i - if i = winner then 1 else 0

/-- What holds after `n` rounds in which a member was served `served` times. -/
structure Balanced (s : Finset ι) (share : ι → K) (n : ℕ) (credit : ι → K) (served : ι → ℕ) :
    Prop where
  sum : ∑ i ∈ s, credit i = 0
  gt : ∀ i ∈ s, -1 < credit i
  count : ∀ i ∈ s, (served i : K) = n * share i - credit i
  unserved : ∀ i ∈ s, share i = 0 → served i = 0

omit [DecidableEq ι] in
theorem Balanced.start : Balanced s share 0 (fun _ => 0) (fun _ => 0) where
  sum := sum_const_zero
  gt _ _ := by simp
  count _ _ := by simp
  unserved _ _ _ := rfl

variable {n : ℕ} {served : ι → ℕ}

/-- The member that is served had credit to pay with. -/
theorem Round.credit_pos (h : Round s share credit winner credit')
    (hcredit : ∑ i ∈ s, credit i = 0) (hshare : ∑ i ∈ s, share i = 1) :
    0 < credit winner + share winner := by
  by_contra hnot
  have hle : ∀ i ∈ s, credit i + share i ≤ 0 := fun i hi => (h.most i hi).trans (not_lt.1 hnot)
  have hsum : ∑ i ∈ s, (credit i + share i) = 1 := by
    rw [sum_add_distrib, hcredit, hshare, zero_add]
  have hzero : ∑ i ∈ s, (credit i + share i) ≤ 0 := sum_nonpos hle
  rw [hsum] at hzero
  exact absurd hzero (not_le.2 one_pos)

section

variable (h : Balanced s share n credit served)
include h

theorem Balanced.round
    (hnonneg : ∀ i ∈ s, 0 ≤ share i) (hshare : ∑ i ∈ s, share i = 1)
    (hr : Round s share credit winner credit') :
    Balanced s share (n + 1) credit' fun i => served i + if i = winner then 1 else 0 where
  sum := by
    have hnext : ∑ i ∈ s, credit' i =
        ∑ i ∈ s, credit i + ∑ i ∈ s, share i - ∑ i ∈ s, if i = winner then (1 : K) else 0 := by
      rw [← sum_add_distrib, ← sum_sub_distrib]
      exact sum_congr rfl hr.pays
    rw [hnext, h.sum, hshare, sum_ite_eq' s winner, if_pos hr.mem]
    ring
  gt i hi := by
    rw [hr.pays i hi]
    by_cases heq : i = winner
    · subst heq
      have hpos := hr.credit_pos h.sum hshare
      rw [if_pos rfl]
      linarith
    · have hgt := h.gt i hi
      have hge := hnonneg i hi
      rw [if_neg heq]
      linarith
  count i hi := by
    rw [hr.pays i hi]
    push_cast
    rw [h.count i hi]
    by_cases heq : i = winner
    · rw [if_pos heq]
      ring
    · rw [if_neg heq]
      ring
  unserved i hi hzero := by
    have hserved := h.unserved i hi hzero
    have hne : i ≠ winner := by
      intro heq
      subst heq
      have hpos := hr.credit_pos h.sum hshare
      have hcredit := h.count i hi
      rw [hserved, hzero] at hcredit
      rw [hzero] at hpos
      push_cast at hcredit
      linarith
    rw [hserved, if_neg hne]

/-- No member has more credit than the others can owe. -/
theorem Balanced.credit_lt (hcard : 2 ≤ s.card) {i : ι} (hi : i ∈ s) : credit i < s.card - 1 := by
  have hne : (s.erase i).Nonempty := by
    rw [← card_pos, card_erase_of_mem hi]
    omega
  have hothers : ∑ j ∈ s.erase i, -credit j < ∑ _j ∈ s.erase i, (1 : K) := by
    refine sum_lt_sum_of_nonempty hne fun j hj => ?_
    have hgt := h.gt j (mem_of_mem_erase hj)
    linarith
  have hcredit : credit i = ∑ j ∈ s.erase i, -credit j := by
    have hsum := add_sum_erase s credit hi
    rw [h.sum] at hsum
    rw [sum_neg_distrib]
    linarith
  rw [hcredit]
  refine hothers.trans_le ?_
  rw [sum_const, card_erase_of_mem hi, nsmul_eq_mul, mul_one, Nat.cast_sub (by omega), Nat.cast_one]

/-- The number of times a member is served differs from its share of the rounds by less than the
number of the other members. -/
theorem Balanced.served_sub_lt (hcard : 2 ≤ s.card) {i : ι}
    (hi : i ∈ s) : |(served i : K) - n * share i| < s.card - 1 := by
  have hlt := h.credit_lt hcard hi
  have hgt := h.gt i hi
  have htwo : (2 : K) ≤ s.card := by exact_mod_cast hcard
  rw [h.count i hi, abs_lt]
  constructor
  · linarith
  · linarith

end

end CreditRounds
