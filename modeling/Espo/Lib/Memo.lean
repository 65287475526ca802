import Espo.Lib.Table

/-!
# Memoized functions

A cache of the values of a function, filled on demand. The cache carries the proof that it holds
values of the function only, so a fetch returns the function's value whatever was fetched before.
-/

namespace Lib

/-- A cache for `f`. -/
structure Memo {K V : Type*} [DecidableEq K] (f : K → V) where
  rows : Table K V
  coherent : ∀ k v, rows.get k = some v → v = f k

namespace Memo
variable {K V : Type*} [DecidableEq K] {f : K → V}

instance : EmptyCollection (Memo f) := ⟨⟨∅, by simp⟩⟩

/-- Look a key up, computing and storing its value when it is not there. -/
def fetch (c : Memo f) (k : K) : V × Memo f :=
  match c.rows.get k with
  | some v => (v, c)
  | none =>
    (f k, ⟨c.rows.put k (f k), fun k' v h => by
      rw [Table.get_put] at h
      split_ifs at h with hk
      · rw [hk, ← Option.some_inj.1 h]
      · exact c.coherent k' v h⟩)

@[simp]
lemma fetch_fst (c : Memo f) (k : K) : (c.fetch k).1 = f k := by
  unfold fetch
  split
  · rename_i v h
    exact c.coherent k v h
  · rfl

end Memo

end Lib
