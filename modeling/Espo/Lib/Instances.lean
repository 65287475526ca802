import Mathlib

/-!
# Instances with a name

What Lean would prove again inside each definition that needs it.
-/

namespace Lib

instance neZero_byte : NeZero 256 := ⟨by decide⟩

instance neZero_u32 : NeZero (2 ^ 32) := ⟨by decide⟩

instance neZero_u64 : NeZero (2 ^ 64) := ⟨by decide⟩

variable {α : Type*}

instance isTrans_le [LinearOrder α] : IsTrans α (· ≤ ·) := instIsTransLe

instance antisymm_le [LinearOrder α] : Std.Antisymm fun a b : α => a ≤ b := instAntisymmLe

instance lawfulBEq_pair [DecidableEq α] : LawfulBEq (α × ℕ) := Prod.instLawfulBEq

end Lib
