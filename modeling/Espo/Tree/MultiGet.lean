import Espo.Tree.History

/-!
# Reads of several keys at once (`multi_get_at_root`)

The positions of the keys are sorted by key, and every internal node hands each of its children the run
of positions whose keys belong there. Reached leaves write to the positions they were handed, so a
position is written by the leaf that `get_at_root` finds for its key.
-/

namespace Espo.TreeDb
open Lib List

section Defs
variable {K V Id : Type*} [LinearOrder K] [DecidableEq Id]

/-- The runs `start..end` of positions that go to the same child, with the index of the child. -/
def childRuns {ι : Type*} (child : ι → ℕ) : List ι → List (ℕ × List ι)
  | [] => []
  | i :: rest =>
    (child i, i :: rest.takeWhile fun j => child j = child i)
      :: childRuns child (rest.dropWhile fun j => child j = child i)
termination_by indices => indices.length
decreasing_by exact Nat.lt_succ_of_le (length_dropWhile_le _ _)

/-- `multi_get_node`, for a number of levels: what `out` holds afterwards. -/
def multiGetNode (disk : Table Id (BptreeNode K V Id)) (keys : List K) :
    ℕ → Id → List (Fin keys.length) → (Fin keys.length → Option V) → Fin keys.length → Option V
  | 0, _, _, out => out
  | fuel + 1, nodeId, sortedIndices, out =>
    if sortedIndices.isEmpty then out
    else
      match loadNode disk nodeId with
      | .leaf leaf =>
        sortedIndices.foldl (fun out idx =>
          match searchEntries leaf.entries (keys.get idx) with
          | .ok entryIdx => Function.update out idx (leaf.entries[entryIdx]?.bind LeafEntry.value)
          | .error _ => out) out
      | .internal node =>
        (childRuns (fun idx => childIndexForKey node.keys (keys.get idx)) sortedIndices).foldl
          (fun out run =>
            match node.children[run.1]? with
            | some childId => multiGetNode disk keys fuel childId run.2 out
            | none => out) out

/-- `multi_get_at_root`, for a number of levels. -/
def multiGetWithin (levels : ℕ) (disk : Table Id (BptreeNode K V Id)) (root : Id) (keys : List K) :
    List (Option V) :=
  let sortedIndices := (List.finRange keys.length).mergeSort fun a b => keys.get a ≤ keys.get b
  if keys.isEmpty then []
  else List.ofFn (multiGetNode disk keys levels root sortedIndices fun _ => none)

/-- `multi_get_at_root`: a path has at most one level for each stored node. -/
def multiGetAtRoot (disk : Table Id (BptreeNode K V Id)) : Id → List K → List (Option V) :=
  multiGetWithin (disk.card + 1) disk

end Defs

/-! ## Filling positions -/

section Fill
variable {ι β V : Type*} [DecidableEq ι] {target : ι → Option V} {out : ι → Option V}
  {indices part : List ι}

/-- Write their targets to the given positions. -/
def fill (target : ι → Option V) (indices : List ι) (out : ι → Option V) : ι → Option V := fun i =>
  if i ∈ indices then target i else out i

/-- The given positions are empty or hold their targets. -/
def Fillable (target : ι → Option V) (indices : List ι) (out : ι → Option V) : Prop :=
  ∀ i ∈ indices, out i = none ∨ out i = target i

lemma Fillable.fill (h : Fillable target indices out) :
    Fillable target indices (fill target part out) := by
  intro i hi
  rw [TreeDb.fill]
  split_ifs
  · exact .inr rfl
  · exact h i hi

lemma fill_append (target : ι → Option V) (indices part : List ι) (out : ι → Option V) :
    fill target (indices ++ part) out = fill target part (fill target indices out) := by
  funext i
  by_cases hi : i ∈ part <;> simp [fill, hi]

lemma fill_congr {target' : ι → Option V} (h : ∀ i ∈ indices, target i = target' i) :
    fill target indices out = fill target' indices out :=
  funext fun _ => ite_congr rfl (h _) fun _ => rfl

lemma Fillable.fill_eq_self (h : Fillable target indices out) (hnone : ∀ i ∈ indices, target i = none) :
    TreeDb.fill target indices out = out := by
  funext i
  rw [TreeDb.fill]
  split_ifs with hi
  · rcases h i hi with hout | hout
    · rw [hout, hnone i hi]
    · exact hout.symm
  · rfl

/-- A loop whose turns fill parts of the positions fills all of them. -/
theorem foldl_eq_fill {step : (ι → Option V) → β → ι → Option V} {part : β → List ι} {l : List β}
    (hstep : ∀ b ∈ l, ∀ out, Fillable target (part b) out → step out b = fill target (part b) out)
    (hout : Fillable target (l.flatMap part) out) :
    l.foldl step out = fill target (l.flatMap part) out := by
  induction l generalizing out with
  | nil => simp [fill, funext_iff]
  | cons b l ih =>
    have hfirst := hstep b mem_cons_self out fun i hi => hout i (mem_append_left _ hi)
    have hrest : Fillable target (l.flatMap part) out := fun i hi => hout i (mem_append_right _ hi)
    rw [foldl_cons, hfirst, ih (fun b hb => hstep b (mem_cons_of_mem _ hb)) hrest.fill,
      flatMap_cons, fill_append]

omit [DecidableEq ι] in
lemma flatMap_childRuns (child : ι → ℕ) (indices : List ι) :
    (childRuns child indices).flatMap Prod.snd = indices := by
  fun_induction childRuns child indices with
  | case1 => rfl
  | case2 i rest ih => rw [flatMap_cons, ih, cons_append, takeWhile_append_dropWhile]

omit [DecidableEq ι] in
lemma child_of_mem_childRuns {child : ι → ℕ} {indices : List ι} {run : ℕ × List ι}
    (h : run ∈ childRuns child indices) : ∀ i ∈ run.2, child i = run.1 := by
  fun_induction childRuns child indices with
  | case1 => cases h
  | case2 i rest ih =>
    rcases mem_cons.1 h with rfl | h
    · intro j hj
      rcases mem_cons.1 hj with rfl | hj
      · rfl
      · simpa using mem_takeWhile_imp hj
    · exact ih h

end Fill

/-! ## Reads at a root -/

section Reads
variable {K V Id : Type*} [LinearOrder K] [DecidableEq Id] {disk : Table Id (BptreeNode K V Id)}

lemma multiGetNode_eq {keys : List K} (fuel : ℕ) (id : Id) {indices : List (Fin keys.length)}
    {out : Fin keys.length → Option V}
    (hout : Fillable (fun i => (getLoop disk (keys.get i) fuel id).join) indices out) :
    multiGetNode disk keys fuel id indices out
      = fill (fun i => (getLoop disk (keys.get i) fuel id).join) indices out := by
  induction fuel generalizing id indices out with
  | zero => exact (hout.fill_eq_self fun _ _ => rfl).symm
  | succ fuel ih =>
    rw [multiGetNode]
    split_ifs with hempty
    · rw [List.isEmpty_iff.1 hempty] at hout ⊢
      exact (hout.fill_eq_self (by simp)).symm
    cases hnode : loadNode disk id with
    | leaf leaf =>
      dsimp only
      have hpart : indices.flatMap (fun i => [i]) = indices := flatMap_singleton' indices
      rw [← hpart] at hout
      rw [foldl_eq_fill _ hout, hpart]
      intro i _ out hout
      have hloop : (getLoop disk (keys.get i) (fuel + 1) id).join
          = match searchEntries leaf.entries (keys.get i) with
            | .ok idx => leaf.entries[idx]?.bind LeafEntry.value
            | .error _ => none := by
        rw [getLoop, hnode]
        rfl
      cases hsearch : searchEntries leaf.entries (keys.get i) with
      | ok entryIdx =>
        rw [hsearch] at hloop
        funext j
        simp only [fill, mem_singleton, Function.update_apply]
        refine ite_congr rfl (fun hj => ?_) fun _ => rfl
        rw [hj, hloop]
      | error _ =>
        rw [hsearch] at hloop
        exact (hout.fill_eq_self fun j hj => mem_singleton.1 hj ▸ hloop).symm
    | internal node =>
      dsimp only
      have hpart := flatMap_childRuns (fun i => childIndexForKey node.keys (keys.get i)) indices
      rw [← hpart] at hout
      rw [foldl_eq_fill _ hout, hpart]
      intro run hrun out hout
      -- the keys of a run go to the same child
      have hloop : ∀ i ∈ run.2, (getLoop disk (keys.get i) (fuel + 1) id).join
          = (node.children[run.1]?).bind fun child => (getLoop disk (keys.get i) fuel child).join := by
        intro i hi
        rw [getLoop, hnode, ← child_of_mem_childRuns hrun i hi]
        dsimp only
        cases node.children[childIndexForKey node.keys (keys.get i)]? <;> rfl
      cases hc : node.children[run.1]? with
      | none => exact (hout.fill_eq_self fun i hi => by rw [hloop i hi, hc]; rfl).symm
      | some child =>
        rw [hc] at hloop
        rw [fill_congr hloop]
        exact ih child fun i hi => (hout i hi).imp_right fun heq => heq.trans (hloop i hi)

variable [DecidableEq V] [NodeHash K V Id]

/-- `multi_get_at_root` returns what `get_at_root` returns for each of the keys, within as many levels
as there are nodes. -/
theorem History.multiGetAtRoot_eq {roots : List Id} (h : History (K := K) (V := V) disk roots) {root : Id}
    (hr : root ∈ roots) (keys : List K) :
    multiGetAtRoot disk root keys = keys.map (getAtRoot disk root) ∧
      ∀ levels, disk.card ≤ levels →
        multiGetWithin levels disk root keys = keys.map (getAtRoot disk root) := by
  have hwithin : ∀ levels, disk.card ≤ levels →
      multiGetWithin levels disk root keys = keys.map (getAtRoot disk root) := by
    intro levels hlevels
    obtain ⟨m, hm⟩ := h.holds.denotes root hr
    rw [multiGetWithin]
    split_ifs with hempty
    · rw [List.isEmpty_iff.1 hempty, map_nil]
    rw [multiGetNode_eq levels root fun _ _ => .inl rfl]
    have hvalues : fill (fun i => (getLoop disk (keys.get i) levels root).join)
        ((List.finRange keys.length).mergeSort fun a b => keys.get a ≤ keys.get b) (fun _ => none)
          = getAtRoot disk root ∘ keys.get := by
      funext i
      rw [fill, if_pos (mem_mergeSort.2 (mem_finRange i)), getLoop_root hm _ hlevels,
        Function.comp_apply, getAtRoot_eq hm]
      rfl
    rw [hvalues, ← map_ofFn, ofFn_get]
  exact ⟨hwithin _ (Nat.le_succ _), hwithin⟩

theorem History.multiGetAtRoot_eq_written :
    ∃ (disk : Table ℕ (BptreeNode ℕ ℕ ℕ)) (root : ℕ), getAtRoot disk root 5 = some 7 ∧
      multiGetAtRoot disk root [9, 5, 5] = [9, 5, 5].map (getAtRoot disk root) := by
  obtain ⟨disk, root, hist, hget⟩ := History.exists_written
    (History.init : History (initDisk ℕ ℕ ℕ) _) mem_cons_self 5 (some 7)
  exact ⟨disk, root, hget, (hist.multiGetAtRoot_eq mem_cons_self [9, 5, 5]).1⟩

end Reads
end Espo.TreeDb
