import Mathlib

/-!
# Script numbers

The numbers of a scripting language are doubles. A model that uses their arithmetic only to take
decisions is generic in them: `JsNumber` names the operations, and `LawfulJsNumber` the one fact
about rounding that bounds on integers computed with them rest on. The exact rationals are an
instance.
-/

/-- `Number.MAX_SAFE_INTEGER` -/
def maxSafeInteger : ℤ := 9007199254740991

/-- The operations on numbers that a program uses. -/
class JsNumber (F : Type) where
  /-- The number that a decimal literal or an integer denotes. -/
  lit : ℚ → F
  add : F → F → F
  sub : F → F → F
  mul : F → F → F
  div : F → F → F
  /-- `Math.min` -/
  min : F → F → F
  /-- `Math.max` -/
  max : F → F → F
  lt : F → F → Bool
  le : F → F → Bool
  /-- `Number.isFinite` -/
  isFinite : F → Bool
  /-- The integer that the number is, if `Number.isSafeInteger` holds. -/
  safeInt : F → Option ℤ
  /-- `Math.floor` of a finite number that is not negative. -/
  floor : F → ℕ
  /-- `Math.ceil` of a finite number that is not negative. -/
  ceil : F → ℕ

namespace JsNumber

instance : JsNumber ℚ where
  lit q := q
  add := (· + ·)
  sub := (· - ·)
  mul := (· * ·)
  div := (· / ·)
  min a b := if a ≤ b then a else b
  max a b := if a ≤ b then b else a
  lt a b := decide (a < b)
  le a b := decide (a ≤ b)
  isFinite _ := true
  safeInt q := if q.den = 1 ∧ -maxSafeInteger ≤ q.num ∧ q.num ≤ maxSafeInteger then some q.num else none
  floor q := q.floor.toNat
  ceil q := (-((-q).floor)).toNat

end JsNumber

/-- Rounding a product is monotone, and exact on safe integers: a safe integer times a number
below one is not rounded above the integer. -/
class LawfulJsNumber (F : Type) [JsNumber F] : Prop where
  floor_mul_le : ∀ (n : ℤ) (x : F), 0 ≤ n → n ≤ maxSafeInteger →
    JsNumber.lt (JsNumber.lit 0) x = true → JsNumber.lt x (JsNumber.lit 1) = true →
    (JsNumber.floor (JsNumber.mul (JsNumber.lit n) x) : ℤ) ≤ n

instance : LawfulJsNumber ℚ where
  floor_mul_le := by
    intro n x hn _ _ hx
    have hx : x < 1 := of_decide_eq_true hx
    have hn' : (0 : ℚ) ≤ n := by exact_mod_cast hn
    have hle : (n : ℚ) * x ≤ n := mul_le_of_le_one_right hn' hx.le
    show (((n : ℚ) * x).floor.toNat : ℤ) ≤ n
    rw [Int.ofNat_toNat]
    refine max_le ?_ hn
    rw [← Int.floor_intCast (R := ℚ) n]
    exact Int.floor_le_floor hle

/-! ## Products in doubles -/

namespace JsNumber

/-- The double next to a natural number, ties to even: the number is cut to 53 binary digits. -/
def roundDouble (n : ℕ) : ℕ :=
  let shift := n.log2 + 1 - 53
  let q := n / 2 ^ shift
  let r := n % 2 ^ shift
  (if 2 ^ shift < 2 * r ∨ (2 * r = 2 ^ shift ∧ q % 2 = 1) then q + 1 else q) * 2 ^ shift

/-- `Math.floor(k * x)` for a natural number `k` and the double `x = m / 2 ^ 53`. -/
def floorMul (k m : ℕ) : ℕ := roundDouble (k * m) / 2 ^ 53

example : floorMul 90 6305039478318694 = 62 := by decide +kernel

theorem excess_le {n u r w k : ℕ} (hn : u + r = n) (hhalf : w ≤ 2 * r) (hlarge : w * k ≤ n) :
    (u + w) * (2 * k) ≤ n * (2 * k + 1) := by
  have hr : w * k ≤ r * (2 * k) := calc
    w * k ≤ 2 * r * k := Nat.mul_le_mul_right k hhalf
    _ = r * (2 * k) := by ring
  calc
    (u + w) * (2 * k) = u * (2 * k) + (w * k + w * k) := by ring
    _ ≤ u * (2 * k) + (r * (2 * k) + n) := Nat.add_le_add_left (Nat.add_le_add hr hlarge) _
    _ = n * (2 * k + 1) := by
      rw [← hn]
      ring

/-- Rounding adds at most one part in `2 ^ 53`. -/
theorem roundDouble_mul_le (n : ℕ) : roundDouble n * 2 ^ 53 ≤ n * (2 ^ 53 + 1) := by
  unfold roundDouble
  generalize hs : n.log2 + 1 - 53 = s
  have hn : n / 2 ^ s * 2 ^ s + n % 2 ^ s = n := Nat.div_add_mod' n (2 ^ s)
  by_cases hup : 2 ^ s < 2 * (n % 2 ^ s) ∨ (2 * (n % 2 ^ s) = 2 ^ s ∧ n / 2 ^ s % 2 = 1)
  · simp only [hup, if_true]
    have hhalf : 2 ^ s ≤ 2 * (n % 2 ^ s) := by omega
    -- Only a number of more than 53 digits is rounded at all.
    have hlarge : 2 ^ s * 2 ^ 52 ≤ n := by
      cases s with
      | zero => omega
      | succ s =>
        have hne : n ≠ 0 := by
          rintro rfl
          cases hs
        rw [← pow_add]
        refine le_trans (Nat.pow_le_pow_right (by decide) ?_) (Nat.log2_self_le hne)
        omega
    have hsum := excess_le hn hhalf hlarge
    rw [Nat.add_mul, Nat.one_mul]
    exact hsum
  · simp only [hup, if_false]
    generalize n / 2 ^ s * 2 ^ s = u at hn ⊢
    omega

/-- A positive number times a double below one is below it. -/
theorem floorMul_lt {k m : ℕ} (hk : 0 < k) (hm : m * (2 ^ 53 + 1) < 2 ^ 106) :
    floorMul k m < k := by
  have hround := roundDouble_mul_le (k * m)
  have hlt : k * (m * (2 ^ 53 + 1)) < k * 2 ^ 106 := Nat.mul_lt_mul_of_pos_left hm hk
  rw [← Nat.mul_assoc] at hlt
  refine Nat.div_lt_of_lt_mul ?_
  omega

end JsNumber
