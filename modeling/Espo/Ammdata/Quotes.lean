import Espo.Ammdata.Reserves

/-!
# Quotes of a hop

The constant-product formulas of the path finder, with the fee in basis points: what a pool gives for an
amount, and what it takes for an amount. All products and sums saturate. As long as none does, the two are
inverse to each other: one gives at least an amount exactly from the other on.
-/

namespace Espo.Ammdata
open Espo.Essentials

/-- `u128::saturating_mul`. -/
def saturatingMul (a b : ℕ) : ℕ := min (a * b) u128Max

/-- `apply_fee`. -/
def applyFee (amountIn feeBps : ℕ) : ℕ := saturatingMul amountIn (10000 - feeBps) / 10000

/-- `div_ceil`. -/
def divCeil (a b : ℕ) : ℕ :=
  if b = 0 then u128Max
  else if a = 0 then 0
  else saturatingAdd 1 ((a - 1) / b)

/-- `xyk_out_exact_in`. -/
def xykOutExactIn (rIn rOut amountIn feeBps : ℕ) : Option ℕ :=
  if rIn = 0 ∨ rOut = 0 then none
  else
    let x := applyFee amountIn feeBps
    if x = 0 then some 0
    else
      let denom := saturatingAdd rIn x
      if denom = 0 then none else some (saturatingMul x rOut / denom)

/-- `xyk_in_for_exact_out`. -/
def xykInForExactOut (rIn rOut amountOut feeBps : ℕ) : Option ℕ :=
  if rIn = 0 ∨ rOut = 0 ∨ amountOut = 0 ∨ rOut ≤ amountOut then none
  else
    let remOut := rOut - amountOut
    if remOut = 0 then none
    else
      let xPrime := divCeil (saturatingMul amountOut rIn) remOut
      let denomBps := 10000 - feeBps
      if denomBps = 0 then none else some (divCeil (saturatingMul xPrime 10000) denomBps)

section
variable (rIn rOut feeBps : ℕ)

/-- Nothing saturates in `xyk_out_exact_in`. -/
structure ForwardFits (amountIn : ℕ) : Prop where
  fee : amountIn * (10000 - feeBps) ≤ u128Max
  sum : rIn + applyFee amountIn feeBps ≤ u128Max
  product : applyFee amountIn feeBps * rOut ≤ u128Max

/-- Nothing saturates in `xyk_in_for_exact_out`. -/
structure InverseFits (amountOut : ℕ) : Prop where
  product : amountOut * rIn ≤ u128Max
  fee : divCeil (amountOut * rIn) (rOut - amountOut) * 10000 ≤ u128Max

end

/-! ## Rounding -/

lemma saturatingMul_eq {a b : ℕ} (h : a * b ≤ u128Max) : saturatingMul a b = a * b := min_eq_left h

lemma divCeil_le_iff {a b c : ℕ} (ha : a ≤ u128Max) (hb : 0 < b) : divCeil a b ≤ c ↔ a ≤ c * b := by
  unfold divCeil
  rw [if_neg hb.ne']
  split_ifs with hzero
  · simp [hzero]
  · have hle : (a - 1) / b ≤ a - 1 := Nat.div_le_self _ _
    have hsum : saturatingAdd 1 ((a - 1) / b) = 1 + (a - 1) / b := min_eq_left (by omega)
    rw [hsum, Nat.add_comm, Nat.succ_le_iff, Nat.div_lt_iff_lt_mul hb]
    omega

lemma le_applyFee_iff {x y feeBps : ℕ} (h : x * (10000 - feeBps) ≤ u128Max) :
    y ≤ applyFee x feeBps ↔ y * 10000 ≤ x * (10000 - feeBps) := by
  rw [applyFee, saturatingMul_eq h, Nat.le_div_iff_mul_le (by decide)]

lemma applyFee_mono {x y : ℕ} (h : x ≤ y) (feeBps : ℕ) : applyFee x feeBps ≤ applyFee y feeBps :=
  Nat.div_le_div_right (min_le_min_right _ (Nat.mul_le_mul_right _ h))

lemma applyFee_le (x feeBps : ℕ) : applyFee x feeBps ≤ x := by
  have hle : saturatingMul x (10000 - feeBps) ≤ x * 10000 :=
    (min_le_left _ _).trans (Nat.mul_le_mul_left _ (Nat.sub_le _ _))
  exact Nat.div_le_of_le_mul (by omega)

/-- What a pool gives for an amount after the fee. -/
def swapOut (rIn rOut x : ℕ) : ℕ := x * rOut / (rIn + x)

section
variable {rIn rOut : ℕ} (hin : 0 < rIn)
include hin

lemma le_swapOut_iff {out : ℕ} (hlt : out < rOut) (x : ℕ) :
    out ≤ swapOut rIn rOut x ↔ out * rIn ≤ x * (rOut - out) := by
  have hle : x * out ≤ x * rOut := Nat.mul_le_mul_left _ hlt.le
  rw [swapOut, Nat.le_div_iff_mul_le (by omega), Nat.mul_add, Nat.mul_sub, Nat.mul_comm out x]
  omega

lemma swapOut_lt (hout : 0 < rOut) (x : ℕ) : swapOut rIn rOut x < rOut := by
  rw [swapOut, Nat.div_lt_iff_lt_mul (by omega), Nat.mul_comm rOut]
  exact Nat.mul_lt_mul_of_pos_right (by omega) hout

lemma swapOut_mono (hout : 0 < rOut) {x y : ℕ} (h : x ≤ y) : swapOut rIn rOut x ≤ swapOut rIn rOut y := by
  have hlt := swapOut_lt hin hout x
  rw [le_swapOut_iff hin hlt]
  exact ((le_swapOut_iff hin hlt x).1 le_rfl).trans (Nat.mul_le_mul_right _ h)

lemma product_le (hout : 0 < rOut) (x : ℕ) :
    rIn * rOut ≤ (rIn + x) * (rOut - swapOut rIn rOut x) := by
  have hlt := swapOut_lt hin hout x
  have hle := (le_swapOut_iff hin hlt x).1 le_rfl
  rw [Nat.add_mul, Nat.mul_sub]
  rw [Nat.mul_comm] at hle
  omega

end

/-! ## Hops -/

section
variable {rIn rOut feeBps x out : ℕ}

lemma ForwardFits.of_le {y : ℕ} (h : ForwardFits rIn rOut feeBps x) (hy : y ≤ x) :
    ForwardFits rIn rOut feeBps y where
  fee := (Nat.mul_le_mul_right _ hy).trans h.fee
  sum := (Nat.add_le_add_left (applyFee_mono hy feeBps) _).trans h.sum
  product := (Nat.mul_le_mul_right _ (applyFee_mono hy feeBps)).trans h.product

lemma xykOutExactIn_eq (hin : 0 < rIn) (hout : 0 < rOut) (h : ForwardFits rIn rOut feeBps x) :
    xykOutExactIn rIn rOut x feeBps = some (swapOut rIn rOut (applyFee x feeBps)) := by
  have hsum : saturatingAdd rIn (applyFee x feeBps) = rIn + applyFee x feeBps := min_eq_left h.sum
  unfold xykOutExactIn swapOut
  rw [if_neg (by omega)]
  dsimp only
  split_ifs with hzero hdenom
  · simp [hzero]
  · omega
  · rw [hsum, saturatingMul_eq h.product]

variable (hin : 0 < rIn) (hfee : feeBps < 10000) (hlt : out < rOut) (hinv : InverseFits rIn rOut out)
include hin hfee hlt hinv

lemma xykInForExactOut_eq (hpos : 0 < out) : xykInForExactOut rIn rOut out feeBps =
    some (divCeil (divCeil (out * rIn) (rOut - out) * 10000) (10000 - feeBps)) := by
  unfold xykInForExactOut
  rw [if_neg (by omega), saturatingMul_eq hinv.product]
  rw [if_neg (by omega), if_neg (by omega), saturatingMul_eq hinv.fee]

/-- A hop gives at least an amount exactly from the amount on that the inverse returns. -/
theorem le_out_iff (h : ForwardFits rIn rOut feeBps x) : out ≤ swapOut rIn rOut (applyFee x feeBps) ↔
    divCeil (divCeil (out * rIn) (rOut - out) * 10000) (10000 - feeBps) ≤ x := by
  rw [le_swapOut_iff hin hlt, ← divCeil_le_iff hinv.product (by omega), le_applyFee_iff h.fee,
    divCeil_le_iff hinv.fee (by omega)]

end

/-- The formulas of a hop are inverse to each other as long as nothing saturates: the smallest amount that
gives at least `out` is returned, larger amounts give no less, and a hop never empties the pool nor lowers the
product of its reserves. -/
theorem hop_formulas_inverse {rIn rOut feeBps : ℕ} (hin : 0 < rIn) (hfee : feeBps < 10000) {out : ℕ}
    (hpos : 0 < out) (hlt : out < rOut) (hinv : InverseFits rIn rOut out) :
    (∃ x, xykInForExactOut rIn rOut out feeBps = some x ∧ (ForwardFits rIn rOut feeBps x →
      IsLeast {y | ∃ o, xykOutExactIn rIn rOut y feeBps = some o ∧ out ≤ o} x)) ∧
    ∀ x, ForwardFits rIn rOut feeBps x → ∃ o, xykOutExactIn rIn rOut x feeBps = some o ∧ o < rOut ∧
      rIn * rOut ≤ (rIn + x) * (rOut - o) ∧
      ∀ y ≤ x, ∃ o', xykOutExactIn rIn rOut y feeBps = some o' ∧ o' ≤ o := by
  have hout : 0 < rOut := by omega
  refine ⟨⟨_, xykInForExactOut_eq hin hfee hlt hinv hpos, fun hfits => ⟨?_, ?_⟩⟩, fun x hfits => ?_⟩
  · exact ⟨_, xykOutExactIn_eq hin hout hfits, (le_out_iff hin hfee hlt hinv hfits).2 le_rfl⟩
  · rintro y ⟨o, ho, hle⟩
    by_contra hsmall
    have hy := hfits.of_le (not_le.1 hsmall).le
    rw [xykOutExactIn_eq hin hout hy] at ho
    cases ho
    exact hsmall ((le_out_iff hin hfee hlt hinv hy).1 hle)
  · refine ⟨_, xykOutExactIn_eq hin hout hfits, swapOut_lt hin hout _, ?_, fun y hy => ?_⟩
    · exact (product_le hin hout _).trans (Nat.mul_le_mul_right _ (Nat.add_le_add_left (applyFee_le x feeBps) _))
    · exact ⟨_, xykOutExactIn_eq hin hout (hfits.of_le hy), swapOut_mono hin hout (applyFee_mono hy feeBps)⟩

theorem hop_formulas_inverse_at_pool :
    IsLeast {y | ∃ o, xykOutExactIn 1000 1000 y 50 = some o ∧ 10 ≤ o} 12 := by
  obtain ⟨⟨x, hx, hleast⟩, -⟩ := @hop_formulas_inverse 1000 1000 50 (by decide) (by decide) 10 (by decide)
    (by decide) ⟨by decide, by decide⟩
  obtain rfl : 12 = x := Option.some.inj hx
  exact hleast ⟨by decide, by decide, by decide⟩

end Espo.Ammdata
