import Espo.Mempool.TemplateSteps

/-!
# The weight of the templates

The test for a package uses `ancestor_vsize`, which is kept up to date while ancestors are placed; the weight of
the block grows by the weights of what is placed. `Sized` ties the two together: `ancestor_vsize` is the size of a
transaction and of the ancestors that are stored with it, and what is placed is among these. It holds for any
parents. The test saturates, so it only passes when its sum is exact.
-/

namespace Espo.Mempool
open Lib List

variable {T O : Type} [LinearOrder T] (txs : MempoolTxs T O)

/-- The size of a transaction in the mempool. -/
def sizeOf (t : T) : ℕ := ((txs.get t).map fun tx => max tx.vsize 1).getD 0

/-- The weight of a transaction in the mempool. -/
def weightOf (t : T) : ℕ :=
  ((txs.get t).map fun tx => max tx.weight (4 * max tx.vsize 1)).getD 0

/-- The sizes that are stored with a transaction. -/
structure Sized (txs : MempoolTxs T O) (t : T) (tx : MinerTx T O) : Prop where
  pos : 1 ≤ sizeOf txs t
  vsize : tx.adjustedVsize = sizeOf txs t
  weight : tx.weight = 4 * sizeOf txs t
  ancestorVsize : tx.ancestorVsize = sizeOf txs t + ∑ a ∈ tx.ancestors, sizeOf txs a

/-- The sizes of a pool. -/
def PoolSized (pool : Pool T O) : Prop := ∀ t tx, pool.get t = some tx → Sized txs t tx

section
variable {arith : F64.Arith} {order : SetOrder T} {txs : MempoolTxs T O}

omit [LinearOrder T] in
lemma foldl_addU64 {l : List T} {f : T → ℕ} {n : ℕ} (h : n + (l.map f).sum < 2 ^ 64) :
    l.foldl (fun sum t => addU64 sum (f t)) n = n + (l.map f).sum := by
  induction l generalizing n with
  | nil => rfl
  | cons t l ih =>
    rw [map_cons, sum_cons] at h ⊢
    have hexact : addU64 n (f t) = n + f t := by
      unfold addU64
      omega
    rw [foldl_cons, ih (by omega)]
    omega

lemma SetOrder.sum_toList (order : SetOrder T) (name : SetName T) (s : Finset T) (f : T → ℕ) :
    ((order.toList name s).map f).sum = ∑ t ∈ s, f t := by
  rw [← sum_toFinset f (order.nodup name s)]
  congr 1
  ext t
  rw [List.mem_toFinset, order.mem_toList]

/-! ## The loop -/

lemma Sized.changed {root t : T} {rootTx tx : MinerTx T O} (hroot : Sized txs root rootTx) (h : Sized txs t tx)
    (hmem : root ∈ tx.ancestors) (rate : F64) :
    Sized txs t (changedTx arith root rootTx.fee rootTx.adjustedVsize rate tx) := by
  refine ⟨h.pos, h.vsize, h.weight, ?_⟩
  have hsum := Finset.add_sum_erase tx.ancestors (sizeOf txs) hmem
  have hpos := h.pos
  show max (tx.ancestorVsize - rootTx.adjustedVsize) 1 = sizeOf txs t + ∑ a ∈ tx.ancestors.erase root, sizeOf txs a
  rw [h.ancestorVsize, hroot.vsize]
  omega

lemma PoolSized.updated {used : List T} {pool pool' : Pool T O} {rate : F64}
    (hupdated : Updated arith order rate used pool pool') (h : PoolSized txs pool) : PoolSized txs pool' := by
  induction hupdated with
  | nil => exact h
  | @cons root used pool pool₁ pool₂ q q' hupdate hrest ih =>
    apply ih
    cases hroot : pool.get root with
    | none =>
      simp only [updateDescendants, hroot] at hupdate
      cases hupdate
      exact h
    | some rootTx =>
      obtain ⟨V, hwalked, -⟩ := updateDescendants_walked hroot hupdate
      intro t tx htx
      rw [hwalked t, Option.map_eq_some_iff] at htx
      obtain ⟨tx', htx', rfl⟩ := htx
      split_ifs with hchanged
      · exact (h root rootTx hroot).changed (h t tx' htx') hchanged.2 rate
      · exact h t tx' htx'

/-- What is known of the weights in the loop. -/
structure WeightInv (txs : MempoolTxs T O) (maxBlocks weightLimit : ℕ) (c : Contents T O) : Prop where
  sized : PoolSized txs c.pool
  weight : c.blocks.length < maxBlocks - 1 → c.blockWeight = 4000 + (c.block.map (weightOf txs)).sum
  limit : c.blocks.length < maxBlocks - 1 → c.block ≠ [] → c.blockWeight < weightLimit
  closed : ∀ i block, c.blocks[i]? = some block → i < maxBlocks - 1 →
    4000 + (block.map (weightOf txs)).sum < weightLimit

lemma sum_packageOf (pool : Pool T O) (t : T) (tx : MinerTx T O) (f : T → ℕ) :
    ((packageOf order pool t tx).map f).sum = ∑ a ∈ tx.ancestors, f a + f t := by
  rw [packageOf, map_append, sum_append, map_singleton, sum_singleton,
    ((perm_insertionSort _ _).map f).sum_eq, order.sum_toList]

lemma WeightInv.of_append {maxBlocks weightLimit : ℕ} {c : Contents T O} (h : WeightInv txs maxBlocks weightLimit c)
    (hblock : c.block ≠ []) {i : ℕ} {block : List T} (hget : (c.blocks ++ [c.block])[i]? = some block)
    (hi : i < maxBlocks - 1) : 4000 + (block.map (weightOf txs)).sum < weightLimit := by
  rw [getElem?_append] at hget
  split_ifs at hget with hlt
  · exact h.closed i block hget hi
  · rw [getElem?_singleton] at hget
    split_ifs at hget with hlast
    cases hget
    have hmore : c.blocks.length < maxBlocks - 1 := by omega
    have hless := h.limit hmore hblock
    rw [h.weight hmore] at hless
    exact hless

/-! ## The weights of the pool -/

section
variable (hweight : ∀ t tx, txs.get t = some tx → tx.weight ≤ 4 * tx.vsize)
include hweight

lemma weightOf_eq (t : T) :
    weightOf txs t = 4 * sizeOf txs t := by
  unfold weightOf sizeOf
  cases htx : txs.get t with
  | none => rfl
  | some tx =>
    have hle := hweight t tx htx
    simp only [Option.map_some, Option.getD_some]
    omega

lemma Visited.poolSized {pool : Pool T O}
    (h : Visited arith order (startPool order txs) (startPool order txs).keys pool)
    (hsum : ∑ t ∈ txs.keys, weightOf txs t < 2 ^ 64) : PoolSized txs pool := by
  have hkeys : (startPool order txs).keys = txs.keys := keys_collectPool _
  have hbase : ∀ t, (startPool order txs).get t
      = (txs.get t).map fun tx => minerTx tx (poolParents txs tx.inputs ∅) := get_collectPool _
  have hfit : ∑ t ∈ txs.keys, 4 * sizeOf txs t < 2 ^ 64 := by simpa only [weightOf_eq hweight] using hsum
  rw [← Finset.mul_sum] at hfit
  have hsize : ∀ t, (((startPool order txs).get t).map MinerTx.adjustedVsize).getD 0 = sizeOf txs t := by
    intro t
    rw [hbase, Option.map_map]
    rfl
  intro t tx htx
  have hkey : t ∈ txs.keys := by
    rw [← hkeys, ← h.keys_eq]
    exact Table.mem_keys_of_get htx
  obtain ⟨mtx, hmtx⟩ := Table.mem_keys.1 hkey
  have hsizeOf : sizeOf txs t = max mtx.vsize 1 := by rw [sizeOf, hmtx]; rfl
  have hone : sizeOf txs t ≤ ∑ t ∈ txs.keys, sizeOf txs t := Finset.single_le_sum (fun _ _ => Nat.zero_le _) hkey
  have hvsize : tx.adjustedVsize = sizeOf txs t := by
    have hmap := h.map_eq MinerTx.adjustedVsize (fun _ => rfl) t
    rw [htx, hbase, hmtx] at hmap
    rw [Option.some.inj hmap, hsizeOf]
    rfl
  have hstored : tx.weight = 4 * sizeOf txs t := by
    have hmap := h.map_eq MinerTx.weight (fun _ => rfl) t
    rw [htx, hbase, hmtx] at hmap
    have hle := hweight t mtx hmtx
    have hmtxWeight : tx.weight = max mtx.weight (max mtx.vsize 1 * 4 % 2 ^ 64) := Option.some.inj hmap
    omega
  refine ⟨by omega, hvsize, hstored, ?_⟩
  -- The totals are sums over two sets of transactions at most, so nothing saturates.
  have hanc : ∑ a ∈ tx.ancestors, sizeOf txs a ≤ ∑ t ∈ txs.keys, sizeOf txs t := by
    refine Finset.sum_le_sum_of_subset ?_
    rw [← hkeys]
    exact h.ancestors t tx htx
  have htotals : (ancestorTotals order (startPool order txs) t tx.ancestors).2
      = sizeOf txs t + ∑ a ∈ tx.ancestors, sizeOf txs a := by
    have hstart : (((startPool order txs).get t).map MinerTx.adjustedVsize).getD 1 = sizeOf txs t := by
      rw [hbase, hmtx, hsizeOf]
      rfl
    have hsnd : ∀ step : ℕ × ℕ → T → ℕ × ℕ,
        (∀ totals, ∀ a ∈ txs.keys, (step totals a).2 = addU64 totals.2 (sizeOf txs a)) →
        ∀ (l : List T) (totals : ℕ × ℕ), (∀ a ∈ l, a ∈ txs.keys) →
          (l.foldl step totals).2 = l.foldl (fun sum a => addU64 sum (sizeOf txs a)) totals.2 := by
      intro step hstep l
      induction l with
      | nil => exact fun _ _ => rfl
      | cons a l ih =>
        intro totals hl
        rw [foldl_cons, foldl_cons, ih _ fun b hb => hl b (mem_cons_of_mem a hb), hstep _ a (hl a mem_cons_self)]
    refine (hsnd _ (fun totals a ha => ?_) _ _ fun a ha => ?_).trans ?_
    · obtain ⟨atx, hatx⟩ := Table.mem_keys.1 ha
      have hget := hsize a
      rw [hbase, hatx] at hget ⊢
      rw [← hget]
      rfl
    · rw [order.mem_toList] at ha
      rw [← hkeys]
      exact h.ancestors t tx htx ha
    · rw [foldl_addU64, order.sum_toList, hstart]
      rw [order.sum_toList]
      omega
  rw [(h.totalled t (hkeys ▸ hkey) tx htx).ancestorVsize]
  omega

lemma WeightInv.place {maxBlocks weightLimit : ℕ} {c c' : Contents T O} {t : T} {tx : MinerTx T O} {used : List T} {rate : F64}
    (hlimit : weightLimit < 2 ^ 64) (h : WeightInv txs maxBlocks weightLimit c) (htx : c.pool.get t = some tx)
    (hfits : addU64 c.blockWeight (mulU64 tx.ancestorVsize 4) < weightLimit)
    (hplaced : Placement rate c (packageOf order c.pool t tx) c' used) :
    c'.blockWeight = c.blockWeight + (used.map (weightOf txs)).sum ∧ c'.blockWeight < weightLimit := by
  have hexact : c.blockWeight + 4 * tx.ancestorVsize < weightLimit := by
    unfold addU64 mulU64 at hfits
    omega
  have hused : (used.map (weightOf txs)).sum ≤ 4 * tx.ancestorVsize := by
    have hle := (hplaced.sublist.map (weightOf txs)).sum_le_sum fun _ _ => Nat.zero_le _
    rw [sum_packageOf, (h.sized t tx htx).ancestorVsize] at *
    simp only [weightOf_eq hweight, ← Finset.mul_sum] at hle ⊢
    omega
  have hsum : c'.blockWeight = c.blockWeight + (used.map (weightOf txs)).sum := by
    rw [hplaced.weight, ← foldl_addU64 (by omega)]
    refine foldl_ext _ _ _ fun sum t' ht' => ?_
    obtain ⟨tx', htx', -⟩ := hplaced.unused t' ht'
    rw [htx', Option.map_some, Option.getD_some, (h.sized t' tx' htx').weight, weightOf_eq hweight]
  exact ⟨hsum, by omega⟩

variable [DecidableEq O]

variable (arith order) in
lemma weightSteps (maxBlocks : ℕ) {weightLimit : ℕ} (hlimit : weightLimit < 2 ^ 64) :
    TemplateSteps arith order maxBlocks weightLimit (WeightInv txs maxBlocks weightLimit) where
  conflict {c t tx} h htx _ _ := by
    refine ⟨fun t' tx' htx' => ?_, h.weight, h.limit, h.closed⟩
    rw [Table.get_put] at htx'
    split_ifs at htx' with heq
    · cases htx'
      have hsized := h.sized t tx htx
      rw [heq]
      exact ⟨hsized.pos, hsized.vsize, hsized.weight, hsized.ancestorVsize⟩
    · exact h.sized t' tx' htx'
  place {c c' t tx used pool'} h htx _ hfits _ hplaced hupdated := by
    have hblocks : c'.blocks.length = c.blocks.length := by rw [hplaced.blocks]
    have hfit : c.blocks.length < maxBlocks - 1 →
        c'.blockWeight = c.blockWeight + (used.map (weightOf txs)).sum ∧ c'.blockWeight < weightLimit := fun hmore =>
      h.place hweight hlimit htx (hfits.resolve_left (by omega)) hplaced
    refine ⟨PoolSized.updated hupdated fun t' tx' htx' => ?_, fun hmore => ?_, fun hmore _ => ?_, ?_⟩
    · rw [hplaced.pool] at htx'
      split_ifs at htx'
      · obtain ⟨tx'', htx'', rfl⟩ := Option.map_eq_some_iff.1 htx'
        have hsized := h.sized t' tx'' htx''
        exact ⟨hsized.pos, hsized.vsize, hsized.weight, hsized.ancestorVsize⟩
      · exact h.sized t' tx' htx'
    · rw [hblocks] at hmore
      rw [hplaced.block, map_append, sum_append, (hfit hmore).1, h.weight hmore]
      omega
    · rw [hblocks] at hmore
      exact (hfit hmore).2
    · rw [hplaced.blocks]
      exact h.closed
  close {c} h hmore hblock := by
    refine ⟨h.sized, fun _ => rfl, fun _ hnil => absurd rfl hnil, fun i block hget hi => ?_⟩
    exact h.of_append hblock hget hi

end

variable [DecidableEq O]

variable (arith order) in
/-- Every block but the last possible one is lighter than the limit, for any parents. -/
theorem calculateBlockTemplates_weight (txs : MempoolTxs T O)
    (hweight : ∀ t tx, txs.get t = some tx → tx.weight ≤ 4 * tx.vsize)
    (hsum : 4000 + ∑ t ∈ txs.keys, weightOf txs t < 2 ^ 64) (maxBlocks : ℕ) {weightLimit : ℕ}
    (hlimit : weightLimit < 2 ^ 64) :
    ∃ blocks rates, calculateBlockTemplates arith order txs maxBlocks weightLimit = some (blocks, rates) ∧
      ∀ i block, blocks[i]? = some block → i < maxBlocks - 1 →
        4000 + (block.map (weightOf txs)).sum < weightLimit := by
  have hstart : ∀ pool, computeRelatives arith order (startPool order txs) = some pool →
      WeightInv txs maxBlocks weightLimit (startContents pool) := by
    intro pool hpool
    obtain ⟨pool', hpool', hvisited⟩ := computeRelatives_startPool arith order txs
    rw [hpool] at hpool'
    cases hpool'
    exact ⟨hvisited.poolSized hweight (by omega), fun _ => rfl, fun _ hnil => absurd rfl hnil, by simp [startContents]⟩
  obtain ⟨c, rates, h, htemplates⟩ := (weightSteps arith order hweight maxBlocks hlimit).templates hstart
  refine ⟨c.templates, rates, htemplates, fun i block hget hi => ?_⟩
  unfold Contents.templates at hget
  split_ifs at hget with hempty
  · exact h.closed i block hget hi
  · exact h.of_append (fun hnil => hempty (by rw [hnil]; rfl)) hget hi

end

/-- The weights of a mempool of two transactions. -/
theorem calculateBlockTemplates_weight_small :
    ∃ blocks rates, calculateBlockTemplates zeroArith sortedOrder smallMempool 8 4000000 = some (blocks, rates) ∧
      ∀ i block, blocks[i]? = some block → i < 8 - 1 →
        4000 + (block.map (weightOf smallMempool)).sum < 4000000 := by
  have hget : ∀ t tx, smallMempool.get t = some tx → tx.weight ≤ 4 * tx.vsize := by
    intro t tx htx
    simp only [smallMempool, Table.get_put, Table.get_empty] at htx
    split_ifs at htx <;> obtain rfl := Option.some.inj htx <;> decide
  exact calculateBlockTemplates_weight zeroArith sortedOrder smallMempool hget (by decide +kernel) 8 (by decide)

end Espo.Mempool
