import Espo.Lib.Instances

/-!
# Numbers as bytes

Fixed-width encodings of natural numbers, in little-endian and big-endian order.
-/

namespace Lib

/-- The lowest `n` bytes of a number, lowest first. -/
def leBytes : ℕ → ℕ → List (Fin 256)
  | 0, _ => []
  | n + 1, v => Fin.ofNat 256 v :: leBytes n (v / 256)

/-- The lowest `n` bytes of a number, highest first. -/
def beBytes (n v : ℕ) : List (Fin 256) := (leBytes n v).reverse

/-- The number that bytes stand for, lowest byte first. -/
def ofLeBytes : List (Fin 256) → ℕ
  | [] => 0
  | b :: bs => b.val + 256 * ofLeBytes bs

@[simp]
lemma length_leBytes (n v : ℕ) : (leBytes n v).length = n := by
  induction n generalizing v with
  | zero => rfl
  | succ n ih => rw [leBytes, List.length_cons, ih]

@[simp]
lemma length_beBytes (n v : ℕ) : (beBytes n v).length = n := by simp [beBytes]

lemma ofLeBytes_leBytes {n v : ℕ} (h : v < 256 ^ n) : ofLeBytes (leBytes n v) = v := by
  induction n generalizing v with
  | zero =>
    rw [leBytes, ofLeBytes]
    omega
  | succ n ih =>
    have hdiv : v / 256 < 256 ^ n := by
      omega
    rw [leBytes, ofLeBytes, ih hdiv]
    show v % 256 + 256 * (v / 256) = v
    omega

lemma beBytes_inj {n v w : ℕ} (hv : v < 256 ^ n) (hw : w < 256 ^ n) (h : beBytes n v = beBytes n w) :
    v = w := by
  have hle : leBytes n v = leBytes n w := List.reverse_injective h
  rw [← ofLeBytes_leBytes hv, hle, ofLeBytes_leBytes hw]

end Lib
