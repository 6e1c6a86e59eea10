import Mathlib

/-!
# Ageing in a ring

A ring of waiting items is served from a moving hand. The hand passes over items it cannot serve,
and each pass-over ages an item; an item of age `limit` may be served out of turn, which moves the
hand to it. For one item of the ring, `pre` is the list of items the hand meets before it and
`post` the list of those it meets after, so the ring seen from the item is `post ++ pre`, farthest
first.

**Main results.** `potential limit post pre` bounds how many services the item can see before its
own turn comes: it falls with every service of an item of `pre` (`potential_serve`) and of an aged
item of `post` (`potential_jump`), and it does not grow when an item leaves (`potential_leave_pre`,
`potential_leave_post`). It is at most `bound limit n` for a ring of `n` other items
(`potential_le_bound`).

An item at distance `d` weighs `3 ^ d`: serving it out of turn gives the hand back at most the
`d - 1` places behind it, which weigh less in all.
-/

namespace Ageing

open List Nat

variable {α : Type*}

/-- What the hand can do on its way over the last `n` places: age each item once, or serve it. -/
def sweep : ℕ → ℕ
  | 0 => 0
  | n + 1 => 3 ^ (n + 1) + 1 + sweep n

theorem sweep_lt (n : ℕ) : sweep n < 3 ^ (n + 1) := by
  induction n with
  | zero => simp [sweep]
  | succ n ih =>
    have hpow : 3 ^ (n + 1 + 1) = 3 ^ (n + 1) * 3 := pow_succ 3 (n + 1)
    rw [sweep]
    omega

theorem sweep_mono : Monotone sweep :=
  monotone_nat_of_le_succ fun _ => le_add_left _ _

variable (age : α → ℕ) (limit : ℕ)

/-- The weight of the ages of a list with `k` places behind it. -/
def weight (k : ℕ) : List α → ℕ
  | [] => 0
  | a :: l => min (age a) limit * 3 ^ (k + l.length + 1) + weight k l

def potential (post pre : List α) : ℕ := weight age limit 0 (post ++ pre) + sweep pre.length

variable {age limit}

theorem weight_append (k : ℕ) (l₁ l₂ : List α) :
    weight age limit k (l₁ ++ l₂) = weight age limit (k + l₂.length) l₁ + weight age limit k l₂ := by
  induction l₁ with
  | nil => simp [weight]
  | cons a l₁ ih =>
    rw [cons_append, weight, weight, ih, length_append,
      show k + (l₁.length + l₂.length) + 1 = k + l₂.length + l₁.length + 1 by omega]
    ring

theorem weight_mono {k k' : ℕ} (h : k ≤ k') (l : List α) :
    weight age limit k l ≤ weight age limit k' l := by
  induction l with
  | nil => exact le_rfl
  | cons a l ih =>
    have hpow : 3 ^ (k + l.length + 1) ≤ 3 ^ (k' + l.length + 1) :=
      Nat.pow_le_pow_right (by omega) (by omega)
    exact Nat.add_le_add (Nat.mul_le_mul_left _ hpow) ih

/-- The hand has passed over every item of `l`. -/
theorem weight_aged {f : α → α} (hf : ∀ a, age (f a) = age a + 1) (k : ℕ) (l : List α) :
    weight age limit k (l.map f) + sweep k ≤ weight age limit k l + sweep (k + l.length) := by
  induction l with
  | nil => simp [weight]
  | cons a l ih =>
    have hage : min (age (f a)) limit ≤ min (age a) limit + 1 := by
      rw [hf]
      omega
    have hmul : min (age (f a)) limit * 3 ^ (k + l.length + 1) ≤
        min (age a) limit * 3 ^ (k + l.length + 1) + 3 ^ (k + l.length + 1) := by
      have := mul_le_mul_right (3 ^ (k + l.length + 1)) hage
      rwa [add_mul, one_mul] at this
    rw [map_cons, weight, weight, length_map, length_cons,
      show k + (l.length + 1) = k + l.length + 1 by omega, sweep]
    omega

theorem weight_le (k : ℕ) (l : List α) :
    weight age limit k l + limit * sweep k ≤ limit * sweep (k + l.length) := by
  induction l with
  | nil => simp [weight]
  | cons a l ih =>
    have hmul : min (age a) limit * 3 ^ (k + l.length + 1) ≤ limit * 3 ^ (k + l.length + 1) :=
      mul_le_mul_right _ (min_le_right _ _)
    rw [weight, length_cons, show k + (l.length + 1) = k + l.length + 1 by omega, sweep,
      mul_add, mul_add]
    omega

/-- What `n` other items can take before the turn of one comes. -/
def bound (limit n : ℕ) : ℕ := (limit + 1) * sweep n

theorem bound_mono {m n : ℕ} (h : m ≤ n) : bound limit m ≤ bound limit n :=
  Nat.mul_le_mul_left _ (sweep_mono h)

theorem potential_le_bound (post pre : List α) :
    potential age limit post pre ≤ bound limit (post.length + pre.length) := by
  have hw := @weight_le α age limit 0 (post ++ pre)
  have hs : sweep pre.length ≤ sweep (post.length + pre.length) := sweep_mono (by omega)
  rw [length_append, zero_add] at hw
  unfold potential bound
  rw [add_mul, one_mul]
  omega

/-! ## Services and departures

`r` is what a service or a departure leaves of the item `b`: nothing, or an item no older. -/

theorem weight_left {b : α} {r : List α} (hr : r.length ≤ 1) (hage : ∀ a ∈ r, age a ≤ age b)
    (k : ℕ) : weight age limit k r ≤ min (age b) limit * 3 ^ (k + 1) := by
  match r with
  | [] => exact zero_le _
  | [a] =>
    have hmin : min (age a) limit ≤ min (age b) limit :=
      min_le_min_right limit (hage a mem_cons_self)
    exact mul_le_mul_right _ hmin

/-- Leaving the ring, or growing young in it. -/
theorem weight_leave {b : α} {r : List α} (hr : r.length ≤ 1) (hage : ∀ a ∈ r, age a ≤ age b)
    (l₁ l₂ : List α) :
    weight age limit 0 (l₁ ++ r ++ l₂) ≤ weight age limit 0 (l₁ ++ b :: l₂) := by
  have hl₁ : weight age limit (l₂.length + r.length) l₁ ≤ weight age limit (l₂.length + 1) l₁ :=
    weight_mono (by omega) l₁
  have hleft := @weight_left α age limit _ _ hr hage l₂.length
  rw [append_assoc, weight_append, weight_append, weight_append, weight, length_append,
    length_cons, zero_add, zero_add, zero_add, add_comm r.length]
  omega

theorem potential_leave_pre {b : α} {r : List α} (hr : r.length ≤ 1)
    (hage : ∀ a ∈ r, age a ≤ age b) (post pre₁ pre₂ : List α) :
    potential age limit post (pre₁ ++ r ++ pre₂) ≤
      potential age limit post (pre₁ ++ b :: pre₂) := by
  have hw := @weight_leave α age limit _ _ hr hage (post ++ pre₁) pre₂
  have hs : sweep (pre₁ ++ r ++ pre₂).length ≤ sweep (pre₁ ++ b :: pre₂).length :=
    sweep_mono (by simp; omega)
  simp only [append_assoc] at hw hs
  simp only [potential, append_assoc]
  exact Nat.add_le_add hw hs

theorem potential_leave_post {b : α} {r : List α} (hr : r.length ≤ 1)
    (hage : ∀ a ∈ r, age a ≤ age b) (post₁ post₂ pre : List α) :
    potential age limit (post₁ ++ r ++ post₂) pre ≤
      potential age limit (post₁ ++ b :: post₂) pre := by
  have hw := @weight_leave α age limit _ _ hr hage post₁ (post₂ ++ pre)
  simp only [append_assoc] at hw
  simp only [potential, append_assoc, cons_append]
  exact Nat.add_le_add_right hw _

/-- The hand serves an item before the turn of the one that waits, after the items `pre₁`; it may
have passed over them, so `pre₁'` is these items up to one sweep of ageing. -/
theorem potential_serve {b : α} {r pre₁ pre₁' : List α} (hr : r.length ≤ 1)
    (hage : ∀ a ∈ r, age a ≤ age b) (hlen : pre₁'.length = pre₁.length)
    (hsweep : ∀ k, weight age limit k pre₁' + sweep k ≤
      weight age limit k pre₁ + sweep (k + pre₁.length)) (post pre₂ : List α) :
    potential age limit (post ++ pre₁' ++ r) pre₂ + 1 ≤
      potential age limit post (pre₁ ++ b :: pre₂) := by
  have hw := @weight_leave α age limit _ _ hr hage (post ++ pre₁') pre₂
  have haged := hsweep (pre₂.length + 1)
  have hplace : sweep (pre₂.length + 1) = 3 ^ (pre₂.length + 1) + 1 + sweep pre₂.length := rfl
  have hpre : weight age limit 0 (post ++ pre₁' ++ b :: pre₂) + sweep (pre₂.length + 1) ≤
      weight age limit 0 (post ++ (pre₁ ++ b :: pre₂)) + sweep (pre₂.length + 1 + pre₁.length) := by
    rw [append_assoc, weight_append, weight_append _ post, weight_append _ pre₁',
      weight_append _ pre₁, length_append, length_append, hlen, length_cons]
    simp only [zero_add]
    omega
  have htotal : (pre₁ ++ b :: pre₂).length = pre₂.length + 1 + pre₁.length := by simp; omega
  unfold potential
  rw [htotal]
  generalize 3 ^ (pre₂.length + 1) = place at hplace
  omega

/-- An aged item is served out of turn, from behind the one that waits. -/
theorem potential_jump {b : α} {r : List α} (hlimit : 0 < limit) (hb : limit ≤ age b)
    (hr : r.length ≤ 1) (hyoung : ∀ a ∈ r, age a = 0) (post₁ post₂ pre : List α) :
    potential age limit (post₁ ++ r) (post₂ ++ pre) + 1 ≤
      potential age limit (post₁ ++ b :: post₂) pre := by
  have hr0 : ∀ k, weight age limit k r = 0 := by
    intro k
    match r with
    | [] => rfl
    | [a] => simp [weight, hyoung a mem_cons_self]
  have hpost : weight age limit ((post₂ ++ pre).length + r.length) post₁ ≤
      weight age limit ((post₂ ++ pre).length + 1) post₁ := weight_mono (by omega) post₁
  have hhand := sweep_lt (post₂ ++ pre).length
  have hpow : 3 ^ ((post₂ ++ pre).length + 1) ≤ limit * 3 ^ ((post₂ ++ pre).length + 1) :=
    Nat.le_mul_of_pos_left _ hlimit
  unfold potential
  rw [append_assoc, weight_append, weight_append _ r, hr0, append_assoc, cons_append,
    weight_append _ post₁, weight, Nat.min_eq_right hb, length_append, length_cons,
    add_comm r.length]
  simp only [zero_add]
  omega

theorem weight_map {g : α → α} (hg : ∀ a, age (g a) = age a) (k : ℕ) (l : List α) :
    weight age limit k (l.map g) = weight age limit k l := by
  induction l with
  | nil => rfl
  | cons a l ih => rw [map_cons, weight, weight, hg, length_map, ih]

theorem potential_map {g : α → α} (hg : ∀ a, age (g a) = age a) (post pre : List α) :
    potential age limit (post.map g) (pre.map g) = potential age limit post pre := by
  rw [potential, potential, ← map_append, weight_map hg, length_map]

end Ageing
