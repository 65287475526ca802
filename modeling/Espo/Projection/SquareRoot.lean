import Espo.Lib.Instances

/-!
# The square root behind the first liquidity

`integer_sqrt` is Newton's iteration from above. With the root below the iterate every turn brings it closer,
and where a turn does not, the iterate is the root. The first sum of the function overflows for the largest
value, `u128::MAX`.
-/

namespace Espo.Projection
open Nat

section
variable (checks : Bool)

/-- An addition of `u128`. Where it overflows it panics with overflow checks, and wraps around without them. -/
def addU128 (a b : ℕ) : Option ℕ :=
  if a + b < 2 ^ 128 then some (a + b) else if checks then none else some ((a + b) % 2 ^ 128)

/-- The loop of `integer_sqrt`; `none` is a panic, also that of a division by zero. -/
def integerSqrtLoop (value x y : ℕ) : Option ℕ :=
  if y < x then
    if y = 0 then none
    else
      match addU128 checks y (value / y) with
      | none => none
      | some sum => integerSqrtLoop value y (sum / 2)
  else some x
termination_by x

/-- `integer_sqrt`. -/
def integerSqrt (value : ℕ) : Option ℕ :=
  if value < 2 then some value
  else (addU128 checks value 1).bind fun sum => integerSqrtLoop checks value value (sum / 2)

end

section
variable {checks : Bool} {value x : ℕ}

lemma sqrt_le_newton (hx : 0 < x) : sqrt value ≤ (x + value / x) / 2 := by
  by_contra hlt
  have hsum : x + (value / x + 1) ≤ 2 * sqrt value := by omega
  have hvalue : 4 * (sqrt value * sqrt value) < 4 * (x * (value / x + 1)) :=
    Nat.mul_lt_mul_of_pos_left ((sqrt_le value).trans_lt (lt_mul_div_succ value hx)) four_pos
  have hmean := four_mul_le_sq_add x (value / x + 1)
  have hsq := Nat.pow_le_pow_left hsum 2
  have heq : (2 * sqrt value) ^ 2 = 4 * (sqrt value * sqrt value) := by ring
  rw [mul_assoc] at hmean
  omega

/-- From an iterate between the root and the value, no sum overflows and the loop ends with the root. -/
theorem integerSqrtLoop_eq (hmax : value + 1 < 2 ^ 128) (hle : x ≤ value) (hroot : sqrt value ≤ x) (hx : 0 < x) :
    integerSqrtLoop checks value x ((x + value / x) / 2) = some (sqrt value) := by
  induction x using Nat.strong_induction_on with
  | h x ih =>
    have hone : 1 ≤ value / x := (Nat.one_le_div_iff hx).2 hle
    rw [integerSqrtLoop]
    split_ifs with hlt hzero
    · omega
    · generalize hy : (x + value / x) / 2 = y at hlt hzero ⊢
      have hpos : 1 ≤ y := pos_of_ne_zero hzero
      have hyroot : sqrt value ≤ y := hy ▸ sqrt_le_newton hx
      have hyle : y ≤ value := hlt.le.trans hle
      have hsum : y + value / y ≤ value + 1 := by
        have hprod := Nat.div_mul_le_self value y
        nlinarith
      rw [addU128, if_pos (by omega)]
      exact ih y hlt hyle hyroot hpos
    · have hsq : x * x ≤ value := (Nat.le_div_iff_mul_le hx).1 (by omega)
      rw [le_antisymm hroot (le_sqrt.2 hsq)]

lemma integerSqrt_eq (hmax : value + 1 < 2 ^ 128) : integerSqrt checks value = some (sqrt value) := by
  rw [integerSqrt]
  split_ifs with hsmall
  · obtain rfl | rfl : value = 0 ∨ value = 1 := by omega
    · rw [sqrt_zero]
    · rw [sqrt_one]
  · have hself : value / value = 1 := Nat.div_self (by omega)
    rw [addU128, if_pos hmax]
    have hloop := @integerSqrtLoop_eq checks _ _ hmax le_rfl (sqrt_le_self value) (by omega)
    rwa [hself] at hloop

lemma integerSqrt_max (checks : Bool) : integerSqrt checks (2 ^ 128 - 1) = none := by
  cases checks
  · -- the sum wraps around to zero, and the first turn divides by it
    rw [integerSqrt, if_neg (by norm_num), addU128, if_neg (by norm_num), if_neg Bool.false_ne_true,
      Option.bind_some, integerSqrtLoop, if_pos (by norm_num), if_pos (by norm_num)]
  · rw [integerSqrt, if_neg (by norm_num), addU128, if_neg (by norm_num), if_pos rfl, Option.bind_none]

end

/-- `integer_sqrt` returns the root of every value but the largest. -/
theorem integerSqrt_iff (checks : Bool) (value : Fin (2 ^ 128)) :
    (∃ r, integerSqrt checks value = some r ∧ IsGreatest {r | r * r ≤ value.1} r) ↔ value.1 ≠ 2 ^ 128 - 1 := by
  constructor
  · rintro ⟨r, hr, -⟩ heq
    rw [heq, integerSqrt_max] at hr
    cases hr
  · intro hne
    refine ⟨sqrt value, integerSqrt_eq (by omega), sqrt_le value, fun r hr => le_sqrt.2 hr⟩

/-- With and without overflow checks the largest value ends in a panic. -/
theorem integerSqrt_panics :
    integerSqrt true (2 ^ 128 - 1) = none ∧ integerSqrt false (2 ^ 128 - 1) = none :=
  ⟨integerSqrt_max true, integerSqrt_max false⟩

end Espo.Projection
