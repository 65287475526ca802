import Espo.Lib.Instances

/-!
# Sums over keys

A sum over a finite set of keys changes with the value at one key by the difference. A quantity
summed over the entries of an association list is the sum of the quantity over any finite set that
has all keys, where a key without an entry counts as zero.
-/

namespace Lib

open List

lemma sum_map_modify {α : Type*} (f : α → ℕ) (g : α → α) (l : List α) (i : ℕ) :
    ((l.modify i g).map f).sum + (l[i]?).elim 0 f = (l.map f).sum + (l[i]?).elim 0 fun a => f (g a) := by
  induction l generalizing i with
  | nil => simp
  | cons a l ih =>
    cases i with
    | zero =>
      simp only [modify_zero_cons, map_cons, sum_cons, getElem?_cons_zero, Option.elim_some]
      omega
    | succ i =>
      have hrest := ih i
      simp only [modify_succ_cons, map_cons, sum_cons, getElem?_cons_succ] at hrest ⊢
      omega

variable {K R M : Type*} [AddCommMonoid M]

/-- The sum of a quantity over the entries. -/
def entrySum (f : R → M) (m : AList fun _ : K => R) : M := (m.entries.map fun e => f e.2).sum

@[simp]
lemma entrySum_empty (f : R → M) : entrySum f (∅ : AList fun _ : K => R) = 0 := rfl

variable [DecidableEq K]

lemma sum_add_of_eq_off {keys : Finset K} {f g : K → M} {k : K} (hk : k ∈ keys)
    (h : ∀ k' ∈ keys, k' ≠ k → f k' = g k') : ∑ i ∈ keys, f i + g k = ∑ i ∈ keys, g i + f k := by
  have hrest : ∑ i ∈ keys.erase k, f i = ∑ i ∈ keys.erase k, g i := by
    apply Finset.sum_congr rfl
    intro i hi
    exact h i (Finset.mem_of_mem_erase hi) (Finset.ne_of_mem_erase hi)
  rw [← Finset.sum_erase_add keys f hk, ← Finset.sum_erase_add keys g hk, hrest]
  exact add_right_comm _ _ _

lemma card_of_eq_off {s t : Finset K} {k : K} (h : ∀ k', k' ≠ k → (k' ∈ t ↔ k' ∈ s)) :
    t.card = if k ∉ s ∧ k ∈ t then s.card + 1 else if k ∈ s ∧ k ∉ t then s.card - 1 else s.card := by
  have herase : t.erase k = s.erase k := by
    ext k'
    rw [Finset.mem_erase, Finset.mem_erase]
    exact and_congr_right (h k')
  have hcard : (t.erase k).card = (s.erase k).card := by rw [herase]
  rw [Finset.card_erase_eq_ite, Finset.card_erase_eq_ite] at hcard
  have hpos : ∀ u : Finset K, k ∈ u → 0 < u.card := fun u hu => Finset.card_pos.2 ⟨k, hu⟩
  by_cases hks : k ∈ s
  · have hs := hpos s hks
    by_cases hkt : k ∈ t
    · have ht := hpos t hkt
      simp only [hks, hkt, if_true] at hcard
      simp [hks, hkt]
      omega
    · simpa [hkt] using hcard
  · by_cases hkt : k ∈ t
    · have ht := hpos t hkt
      simp only [hks, hkt, if_true, if_false] at hcard
      simp [hks, hkt]
      omega
    · simpa [hkt] using hcard

lemma entrySum_insert (f : R → M) {m : AList fun _ : K => R} {k : K} (r : R) (h : k ∉ m) :
    entrySum f (m.insert k r) = f r + entrySum f m := by
  rw [entrySum, AList.entries_insert_of_notMem h, map_cons]
  rfl

lemma entrySum_eq_sum (f : R → M) (m : AList fun _ : K => R) {keys : Finset K}
    (h : ∀ k ∈ m, k ∈ keys) : entrySum f m = ∑ k ∈ keys, (m.lookup k).elim 0 f := by
  induction m using AList.insertRec with
  | H0 => simp
  | IH k r m hk ih =>
    have hlookup : ∀ k', ((m.insert k r).lookup k').elim 0 f
        = (if k' = k then f r else 0) + (m.lookup k').elim 0 f := by
      intro k'
      by_cases hk' : k' = k
      · subst hk'
        rw [AList.lookup_eq_none.2 hk]
        simp
      · rw [AList.lookup_insert_ne hk', if_neg hk', zero_add]
    have hmem : k ∈ keys := h k (AList.mem_insert m |>.2 (.inl rfl))
    rw [entrySum_insert f r hk, ih fun k' hk' => h k' (AList.mem_insert m |>.2 (.inr hk')),
      Finset.sum_congr rfl fun k' _ => hlookup k', Finset.sum_add_distrib,
      Finset.sum_ite_eq' keys k, if_pos hmem]

/-- The sum of a quantity over the entries that depends on their keys too. -/
def keyedSum (f : K → R → M) (m : AList fun _ : K => R) : M := (m.entries.map fun e => f e.1 e.2).sum

variable (f : K → R → M)

omit [DecidableEq K] in
@[simp]
lemma keyedSum_empty : keyedSum f (∅ : AList fun _ : K => R) = 0 := rfl

lemma keyedSum_erase (m : AList fun _ : K => R) (k : K) :
    keyedSum f m = (m.lookup k).elim 0 (f k) + keyedSum f (m.erase k) := by
  have hlist : ∀ l : List (Sigma fun _ : K => R), (l.map fun e => f e.1 e.2).sum
      = (l.dlookup k).elim 0 (f k) + ((l.kerase k).map fun e => f e.1 e.2).sum := by
    intro l
    induction l with
    | nil => simp
    | cons e l ih =>
      by_cases hk : k = e.1
      · subst hk
        rw [dlookup_cons_eq, kerase_cons_eq rfl, map_cons]
        rfl
      · rw [dlookup_cons_ne _ _ hk, kerase_cons_ne hk, map_cons, map_cons, sum_cons, ih]
        exact add_left_comm _ _ _
  exact hlist m.entries

lemma keyedSum_insert (m : AList fun _ : K => R) (k : K) (r : R) :
    keyedSum f (m.insert k r) = f k r + keyedSum f (m.erase k) := by
  rfl

end Lib
