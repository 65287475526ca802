import Espo.Lib.Instances

/-!
# Sequences of point writes

A list of changes applied to a total map one after the other, so that the last write of a key wins.
Two rewritings of such a list leave its effect alone: sorting it by key with a stable sort, and
merging neighbours that write the same key.
-/

namespace Lib
variable {K W : Type*}

/-- Apply the changes in list order. -/
def writeAll [DecidableEq K] (m : K → W) (cs : List (K × W)) : K → W :=
  cs.foldl (fun m c => Function.update m c.1 c.2) m

section
variable [DecidableEq K] (m : K → W)

@[simp]
lemma writeAll_nil : writeAll m [] = m := rfl

@[simp]
lemma writeAll_cons (c : K × W) (cs : List (K × W)) :
    writeAll m (c :: cs) = writeAll (Function.update m c.1 c.2) cs := rfl

lemma writeAll_append (cs ds : List (K × W)) :
    writeAll m (cs ++ ds) = writeAll (writeAll m cs) ds :=
  List.foldl_append

lemma writeAll_of_notMem (cs : List (K × W)) {k : K} (h : ∀ c ∈ cs, c.1 ≠ k) :
    writeAll m cs k = m k := by
  induction cs generalizing m with
  | nil => rfl
  | cons c cs ih =>
    rw [writeAll_cons, ih _ fun d hd => h d (List.mem_cons_of_mem c hd)]
    exact Function.update_of_ne (h c List.mem_cons_self).symm _ _

/-- Merge a change into a reversed list of changes: a change of the key written last replaces that
write. -/
def mergeWrite : List (K × W) → K × W → List (K × W)
  | [], c => [c]
  | d :: ds, c => if d.1 = c.1 then (d.1, c.2) :: ds else c :: d :: ds

lemma writeAll_mergeWrite (ds : List (K × W)) (c : K × W) :
    writeAll m (mergeWrite ds c).reverse = Function.update (writeAll m ds.reverse) c.1 c.2 := by
  cases ds with
  | nil => rfl
  | cons d ds =>
    rw [mergeWrite]
    split_ifs with h
    · simp only [List.reverse_cons, writeAll_append, writeAll_cons, writeAll_nil, h,
        Function.update_idem]
    · simp only [List.reverse_cons, writeAll_append, writeAll_cons, writeAll_nil]

lemma writeAll_foldl_mergeWrite (cs ds : List (K × W)) :
    writeAll m (cs.foldl mergeWrite ds).reverse = writeAll (writeAll m ds.reverse) cs := by
  induction cs generalizing ds with
  | nil => rfl
  | cons c cs ih => rw [List.foldl_cons, ih, writeAll_mergeWrite, writeAll_cons]

end

section
variable [LinearOrder K] (m : K → W)

/-- Changes ordered by key. -/
def keyLE (a b : K × W) : Prop := a.1 ≤ b.1

instance : DecidableRel (keyLE (K := K) (W := W)) := fun a b => inferInstanceAs (Decidable (a.1 ≤ b.1))

lemma writeAll_orderedInsert (c : K × W) (cs : List (K × W)) :
    writeAll m (cs.orderedInsert keyLE c) = writeAll m (c :: cs) := by
  induction cs generalizing m with
  | nil => rfl
  | cons d cs ih =>
    rw [List.orderedInsert_cons]
    split_ifs with h
    · rfl
    · have hne : c.1 ≠ d.1 := fun he => h (le_of_eq he)
      rw [writeAll_cons, ih, writeAll_cons, writeAll_cons, writeAll_cons,
        Function.update_comm hne]

/-- A stable sort by key leaves the effect of a list alone. -/
theorem writeAll_insertionSort (cs : List (K × W)) :
    writeAll m (cs.insertionSort keyLE) = writeAll m cs := by
  induction cs generalizing m with
  | nil => rfl
  | cons c cs ih => rw [List.insertionSort_cons, writeAll_orderedInsert, writeAll_cons, ih,
      writeAll_cons]

end
end Lib
