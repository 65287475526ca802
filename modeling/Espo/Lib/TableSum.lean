import Espo.Lib.EntrySum
import Espo.Lib.Table

/-!
# Sums over the rows of a table

A quantity summed over the rows of a table changes with one row by the difference. It is stated as an
equation with the old row on the other side, so that it holds in any commutative monoid.
-/

namespace Lib.Table
variable {K V M : Type*} [DecidableEq K] [AddCommMonoid M]

/-- The sum of a quantity over the rows. -/
def rowSum (f : K → V → M) (t : Table K V) : M := ∑ k ∈ t.keys, (t.get k).elim 0 (f k)

variable (f : K → V → M)

lemma rowSum_eq_sum {t : Table K V} {keys : Finset K} (h : t.keys ⊆ keys) :
    rowSum f t = ∑ k ∈ keys, (t.get k).elim 0 (f k) := by
  apply Finset.sum_subset h
  intro k _ hk
  rw [notMem_keys.1 hk]
  rfl

lemma rowSum_put (t : Table K V) (k : K) (v : V) :
    rowSum f (t.put k v) + (t.get k).elim 0 (f k) = rowSum f t + f k v := by
  have hsub : (t.put k v).keys ⊆ insert k t.keys := by
    intro k' hk'
    obtain ⟨w, hw⟩ := mem_keys.1 hk'
    rw [get_put] at hw
    split_ifs at hw with heq
    · exact Finset.mem_insert.2 (.inl heq)
    · exact Finset.mem_insert.2 (.inr (mem_keys_of_get hw))
  have hoff : ∀ k' ∈ insert k t.keys, k' ≠ k →
      ((t.put k v).get k').elim 0 (f k') = (t.get k').elim 0 (f k') := by
    intro k' _ hne
    rw [get_put_of_ne _ _ hne]
  have hsum := sum_add_of_eq_off (Finset.mem_insert_self k t.keys) hoff
  rw [get_put_self] at hsum
  rw [rowSum_eq_sum f hsub, rowSum_eq_sum f (Finset.subset_insert k t.keys)]
  exact hsum

lemma rowSum_putAll {G : Type*} [AddCommGroup G] (f : K → V → G) (t : Table K V) {l : List (K × V)}
    (h : (l.map Prod.fst).Nodup) : rowSum f (t.putAll l)
      = rowSum f t + (l.map fun e => f e.1 e.2 - (t.get e.1).elim 0 (f e.1)).sum := by
  induction l using List.reverseRecOn with
  | nil => exact (add_zero _).symm
  | append_singleton l e ih =>
    rw [List.map_append, List.nodup_append] at h
    have hnew : e.1 ∉ l.map Prod.fst := fun hmem => h.2.2 _ hmem _ List.mem_cons_self rfl
    have hput := rowSum_put f (t.putAll l) e.1 e.2
    rw [get_putAll_of_notMem t hnew] at hput
    rw [putAll_concat, eq_sub_of_add_eq hput, ih h.1, List.map_append, List.sum_append,
      List.map_singleton, List.sum_singleton, add_sub_assoc, add_assoc]

end Lib.Table
