import Espo.Lib.Instances

/-!
# Doubles by their bits

An `f64` is its 64 bits: the sign is the highest bit, and the other bits, as a number, order the values of one
sign. `totalCmp` is `f64::total_cmp` and `partialCmp` is `f64::partial_cmp`. On the plain values, which are
neither negative nor infinite nor a NaN, both compare the bits.
-/

namespace Lib

/-- A double. -/
structure F64 where
  bits : Fin (2 ^ 64)
  deriving DecidableEq

namespace F64

variable (x : F64)

/-- The bits without the sign. -/
def magnitude : ℕ := x.bits % 2 ^ 63

/-- The sign bit is set. -/
def isSignNegative : Bool := decide (2 ^ 63 ≤ (x.bits : ℕ))

/-- `is_nan`. -/
def isNan : Bool := decide (0x7FF0000000000000 < x.magnitude)

/-- The number that `total_cmp` compares: for a negative value the other bits are flipped. -/
def totalKey : ℤ := if x.isSignNegative then -(x.magnitude : ℤ) - 1 else x.magnitude

/-- `total_cmp`. -/
def totalCmp (x y : F64) : Ordering := compare x.totalKey y.totalKey

/-- A number that orders the values; both zeros are the same. -/
def valueKey : ℤ := if x.isSignNegative then -(x.magnitude : ℤ) else x.magnitude

/-- `partial_cmp`. -/
def partialCmp (x y : F64) : Option Ordering :=
  if x.isNan || y.isNan then none else some (compare x.valueKey y.valueKey)

/-- `0.0`. -/
def zero : F64 := ⟨0⟩

/-- A value that is neither negative nor infinite nor a NaN, nor the negative zero. -/
def Plain : Prop := (x.bits : ℕ) < 0x7FF0000000000000

lemma zero_plain : zero.Plain := Nat.zero_lt_succ _

lemma totalKey_injective {x y : F64} (h : x.totalKey = y.totalKey) : x = y := by
  have hbits : (x.bits : ℕ) = y.bits := by
    unfold totalKey isSignNegative magnitude at h
    simp only [decide_eq_true_eq] at h
    split_ifs at h <;> omega
  exact congrArg F64.mk (Fin.ext hbits)

section
variable {x y : F64}

lemma Plain.isSignNegative (h : x.Plain) : x.isSignNegative = false := by
  unfold Plain at h
  rw [F64.isSignNegative, decide_eq_false_iff_not]
  omega

lemma Plain.magnitude (h : x.Plain) : x.magnitude = x.bits := by
  unfold Plain at h
  exact Nat.mod_eq_of_lt (by omega)

lemma Plain.isNan (h : x.Plain) : x.isNan = false := by
  rw [F64.isNan, h.magnitude, decide_eq_false_iff_not]
  unfold Plain at h
  omega

lemma compare_natCast (m n : ℕ) : compare (m : ℤ) (n : ℤ) = compare m n := by
  simp only [compare, compareOfLessAndEq, Int.ofNat_lt, Int.ofNat_inj]

lemma Plain.partialCmp (hx : x.Plain) (hy : y.Plain) :
    x.partialCmp y = some (compare (x.bits : ℕ) (y.bits : ℕ)) := by
  have hkey : ∀ z : F64, z.Plain → z.valueKey = (z.bits : ℕ) := by
    intro z hz
    rw [valueKey, hz.isSignNegative, hz.magnitude]
    rfl
  rw [F64.partialCmp, hx.isNan, hy.isNan, hkey x hx, hkey y hy, compare_natCast]
  rfl

lemma Plain.totalCmp (hx : x.Plain) (hy : y.Plain) :
    x.totalCmp y = compare (x.bits : ℕ) (y.bits : ℕ) := by
  have hkey : ∀ z : F64, z.Plain → z.totalKey = (z.bits : ℕ) := by
    intro z hz
    rw [totalKey, hz.isSignNegative, hz.magnitude]
    rfl
  rw [F64.totalCmp, hkey x hx, hkey y hy, compare_natCast]

end

/-- The arithmetic that is not a comparison. -/
structure Arith where
  /-- `a as f64 / b as f64` of two `u64`. -/
  ratio : ℕ → ℕ → F64
  /-- `f64::min`. -/
  min : F64 → F64 → F64
  /-- A quotient of two `u64` is at most `2 ^ 64`, and it is zero only as `0.0`. -/
  ratio_plain : ∀ a b, 0 < b → (ratio a b).Plain

end F64
end Lib
